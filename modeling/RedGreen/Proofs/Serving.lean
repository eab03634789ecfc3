import RedGreen.Proofs.Bystanders
import RedGreen.Proofs.Clearing

set_option autoImplicit false

/-! # Requests in joined worlds

A client that *keeps to* some inputs writes no others, and asks for nothing for which others are read
(`Request.KeepsTo`). If it is alone with one of two joined worlds and shares the other one, its request
is answered in both alike: a query with the same answer, up to the numbers of allocations
(`Joined.serves`). The worlds are joined again afterwards, and whoever keeps to other inputs is not
concerned by what has become of the shared one (`World.Serves`). -/

namespace RedGreen

open Evaluation Relation

variable {p : Program} {use : Usages} {N N' F : Node → Prop} {inputs inputs' : Node → Prop}
  {ρ : Renaming} {births births₁ : Nat → Option SlotId} {v v' w w' w'' : World} {i : SlotId}
  {n : Node} {t t' : Token}

/-! ## Nodes for which only some inputs are read -/

/-- Whatever inputs are read for a node, they are among the given ones. -/
def Program.ReadsOnly (p : Program) (use : Usages) (inputs : Node → Prop) (n : Node) : Prop :=
  ∀ m, ReflTransGen p.Refers n m → (use m.query).kind = .input → inputs m

/-- No input is read for a node. -/
def Program.Constant (p : Program) (use : Usages) (n : Node) : Prop :=
  p.ReadsOnly use (fun _ => False) n

theorem Program.realm_readsOnly (p : Program) (use : Usages) (inputs : Node → Prop) :
    p.Realm use (p.ReadsOnly use inputs) (p.Constant use) where
  closed _ _ hm hrefers k hpath := hm k (hpath.head hrefers)
  constant _ _ hm hrefers k hpath := hm k (hpath.head hrefers)
  within _ hn m hpath hinput := (hn m hpath hinput).elim
  derived n hn := by
    cases hkind : (use n.query).kind with
    | derived => rfl
    | input => exact (hn n .refl hkind).elim

/-- For what two clients have in common no input is read, if they keep to different ones. -/
theorem Program.ReadsOnly.constant (h : p.ReadsOnly use inputs n) (h' : p.ReadsOnly use inputs' n)
    (hdisjoint : ∀ m, inputs m → ¬inputs' m) : p.Constant use n :=
  fun m hpath hinput => hdisjoint m (h m hpath hinput) (h' m hpath hinput)

/-- For an input nothing is read but the input itself. -/
theorem Program.Consistent.readsOnly (hp : p.Consistent use) (hkind : (use n.query).kind = .input)
    (hn : inputs n) : p.ReadsOnly use inputs n := by
  intro m hpath _
  rcases hpath.cases_head with rfl | ⟨k, ⟨label, hid, -⟩, -⟩
  · exact hn
  · have hderived := hp.derived label
    rw [hid, hkind] at hderived
    cases hderived

/-- A request through the entry lock that writes one of some inputs, or asks for a value for which only
    these are read. -/
inductive Request.KeepsTo (p : Program) (use : Usages) (inputs : Node → Prop) : Request → Prop
  | write {access : Access} {query : QueryId} {key : Key} {x : Value} (entry : access ≠ .free)
    (typed : use query = ⟨.input, key.type, x.type⟩) (own : inputs ⟨query, key⟩) :
    KeepsTo p use inputs (.write access query key x)
  | query {access : Access} {label : Label} {key : Key} (entry : access ≠ .free)
    (typed : key.type = (use (p label).id).keyType) (own : p.ReadsOnly use inputs (p.node label key)) :
    KeepsTo p use inputs (.query access label key)

theorem Request.KeepsTo.takesTurns {request : Request} (h : request.KeepsTo p use inputs) :
    request.TakesTurns := by
  cases h with
  | write entry | query entry => exact entry

/-- A request for a derived value. -/
def Request.asks : Request → Bool
  | .query .. => true
  | _ => false

/-- What a reply is under other numbers of allocations. -/
def Reply.rename (π : Equiv.Perm Nat) : Reply → Reply
  | .value x => .value (x.rename π)
  | reply => reply

namespace World

/-! ## Worlds that broaden -/

/-- Slots may be new, and others may know of it, and the lock may be taken or given back. -/
structure Broadens (p : Program) (use : Usages) (w w' : World) : Prop where
  grows : w.Grows w'
  tidy : Tidy p use w'.toSystem
  edits : w.Edits p w'

namespace Broadens

theorem trans (h : w.Broadens p use w') (h' : w'.Broadens p use w'') : w.Broadens p use w'' :=
  ⟨h.grows.trans h'.grows, h'.tidy, h.edits.trans h'.edits⟩

theorem admits {access : Access} {queued : Bool} {admission : Admission} (ht : Tidy p use w.toSystem)
    (h : access.admission queued w = (admission, w')) : w.Broadens p use w' := by
  have halters := Access.alters_of_entry h
  have hedits := access.edits_admission queued (p := p) w
  rw [h] at hedits
  exact ⟨halters.grows, halters.tidy ht, hedits⟩

theorem releases (access : Access) (ht : Tidy p use w.toSystem) :
    w.Broadens p use (access.release w) :=
  ⟨(access.alters_release w).grows, (access.alters_release w).tidy ht, Access.edits_release access w⟩

theorem copies (ht : Tidy p use w.toSystem) (x : Value) : w.Broadens p use (w.ownCopy x).2 :=
  ⟨(w.quiet_ownCopy x).grows, (w.quiet_ownCopy x).tidy ht, w.edits_ownCopy x⟩

theorem linked (h : w.Broadens p use w') (hlinked : w.Linked) : w'.Linked :=
  hlinked.calm (h.edits.calm h.grows.revision h.grows.memo)

theorem recorded (h : w.Broadens p use w') (hrecorded : w.Recorded p) : w'.Recorded p :=
  hrecorded.of_memo h.edits.continues fun i => .inl (h.grows.memo i)

end Broadens

/-- In both worlds slots may be new, and nothing else. -/
theorem Joined.broadens (h : Joined p use N F ρ births [] v w) (hv : v.Broadens p use v')
    (hw : w.Broadens p use w') (hlinked : v.Linked) (hlinked' : w.Linked) :
    Joined p use N F ρ births [] v' w' :=
  h.grows hv.grows hw.grows hlinked hlinked' hv.tidy hw.tidy (allocations_le_of_edits hv.edits)
    (allocations_le_of_edits hw.edits)

/-! ## Worlds at rest -/

/-- Nothing is in progress, and what has come before has left everything in order. -/
structure Resting (p : Program) (w : World) : Prop where
  memoize : w.memoize = true
  unlocked : w.entryLocked = false
  idle : w.active = []
  untroubled : w.cancelled = []
  timely : w.Timely []
  linked : w.Linked
  directory : w.InDirectory p
  recorded : w.Recorded p

/-- An evaluation that begins in a world at rest is in order. -/
theorem Resting.orderly (h : w.Resting p) (hw : w.Broadens p use w') (hactive : w'.active = w.active) :
    Evaluation.Orderly p w' i ⟨.fetch i, []⟩ where
  memoize := hw.grows.memoize.trans h.memoize
  stacked := ⟨List.nodup_nil, by rw [hactive, h.idle]; exact .nil⟩
  timely := h.timely.still ⟨hw.grows.revision, hw.grows.memoize, hw.grows.memo, hw.grows.written⟩
  linked := hw.linked h.linked
  tends := .requested .nobody
  directory := hw.edits.inDirectory h.directory
  recorded := hw.recorded h.recorded
  descends := .requested .root

/-- What a request for some nodes makes of a shared world does not concern others. -/
structure Serves (p : Program) (use : Usages) (N F : Node → Prop) (births : Nat → Option SlotId)
    (w : World) (births₁ : Nat → Option SlotId) (w₁ : World) : Prop where
  sustains : ∀ N', p.Realm use N' F → (∀ n, N n → N' n → F n) → w.Sustains N' F w₁
  allocations : w.allocations ≤ w₁.allocations
  births : ∀ n, n < w.allocations → births₁ n = births n

/-! ## How requests begin -/

section Begin

variable (h : w.Resting p) (ht : Tidy p use w.toSystem)
include h ht

/-- A query begins the evaluation of the slot of its node. -/
theorem Resting.begins_query (hp : p.Consistent use) (access : Access) {label : Label} {key : Key}
    (typed : key.type = (use (p label).id).keyType) (t : Token) :
    ∃ i w₁, (∀ budget polls, Task.run p budget (polls + 1)
        { request := .query access label key, token := t } w = Task.run p budget (polls + 1)
          { request := .query access label key, token := t, suspended := some (.request i) } w₁) ∧
      w.Broadens p use w₁ ∧ w₁.node? i = some (p.node label key) ∧ w₁.active = w.active := by
  obtain ⟨w₁, hentry, halters, -⟩ := access.admission_of_unlocked false h.unlocked
  have hadmits := Broadens.admits ht hentry
  obtain ⟨i, w₂, hslot, hfinds⟩ := derivedSlot_spec hp hadmits.tidy typed
  have hbegin : Request.begin p (.query access label key) w₁ = (.evaluating (.request i), w₂) := by
    simp only [Request.begin, hslot, Begun.ofSlot]
  have hedits := Request.edits_begin p (.query access label key) w₁
  rw [hbegin] at hedits
  exact ⟨i, w₂, fun budget polls => Task.run_of_begin rfl hentry hbegin,
    hadmits.trans ⟨hfinds.toGrows, hfinds.tidy, hedits⟩, hfinds.found,
    hfinds.active.trans halters.active⟩

/-- A write puts the system's own copy of the value into the slot of the input. -/
theorem Resting.runs_write (access : Access) {query : QueryId} {key : Key} {x : Value}
    (typed : use query = ⟨.input, key.type, x.type⟩) (t : Token) :
    ∃ w₁ i w₂, w.Broadens p use w₁ ∧ (w₁.ownCopy x).2.Broadens p use w₂ ∧
      w₂.node? i = some ⟨query, key⟩ ∧ Tidy p use (w₂.put i (w₁.ownCopy x).1).toSystem ∧
      w₂.Writes i (w₁.ownCopy x).1 (w₂.put i (w₁.ownCopy x).1) ∧
      ∀ budget polls, Task.run p budget (polls + 1)
        { request := .write access query key x, token := t } w =
          (.ready (.ok (.revision w₂.revision.next)),
            access.release (w₂.put i (w₁.ownCopy x).1)) := by
  obtain ⟨w₁, hentry, -⟩ := access.admission_of_unlocked false h.unlocked
  have hadmits := Broadens.admits ht hentry
  have typed' : use query = ⟨.input, key.type, (w₁.ownCopy x).1.type⟩ := by
    rw [(w₁.alike_ownCopy x).type]
    exact typed
  obtain ⟨i, w₂, hslot, hfinds⟩ := inputSlot_spec ((w₁.quiet_ownCopy x).tidy hadmits.tidy) typed'
  have hedits := (w₁.ownCopy x).2.edits_inputSlot (p := p) query (w₁.ownCopy x).1.type key
  rw [hslot] at hedits
  obtain ⟨ht', hwrites⟩ := put_spec hfinds.tidy hfinds.found (congrArg Usage.kind typed)
    (congrArg Usage.valueType typed').symm
  have hbegin : Request.begin p (.write access query key x) w₁ =
      (.answered (.ok (.revision w₂.revision.next)), w₂.put i (w₁.ownCopy x).1) := by
    simp only [Request.begin, World.write, hslot, Begun.ofResult]
    rfl
  exact ⟨w₁, i, w₂, hadmits, ⟨hfinds.toGrows, hfinds.tidy, hedits⟩, hfinds.found, ht', hwrites,
    fun budget polls => Task.run_of_answered rfl hentry hbegin⟩

end Begin

/-! ## How requests are answered -/

section Serves

variable (hp : p.Anonymous use) (htr : ∀ label key, Transparent ((p label).body key))
  (hrealm : p.Realm use N F) (h : Joined p use N F ρ births [] v w) (hv : v.Resting p)
  (hw : w.Resting p)
include hrealm h hv hw

include hp htr in
/-- A query that is answered in the first world is answered in the second one, with the same answer. -/
theorem Joined.serves_query {access : Access} {label : Label} {key : Key}
    (typed : key.type = (use (p label).id).keyType) (hn : N (p.node label key)) (t' : Token)
    {budget polls : Nat} {answer : Except QueryError Reply} {v₁ : World}
    (hrun : Task.run p budget polls { request := .query access label key, token := t } v =
      (.ready answer, v₁)) :
    ∃ bound answer' ρ₁ births₁ w₁, (∀ budget polls, bound ≤ budget → bound ≤ polls →
        Task.run p budget polls { request := .query access label key, token := t' } w =
          (.ready answer', w₁)) ∧
      ρ ⊆ ρ₁ ∧ (∀ π, ρ₁.Admits π → answer' = answer.map (Reply.rename π)) ∧
      Joined p use N F ρ₁ births₁ [] v₁ w₁ ∧ (v₁.cancelled = [] ∧ w₁.cancelled = []) ∧
      w.Serves p use N F births births₁ w₁ := by
  obtain ⟨polls, rfl⟩ : ∃ n, polls = n + 1 := by
    cases polls with
    | zero => cases hrun
    | succ n => exact ⟨n, rfl⟩
  obtain ⟨i, v₂, hbegin, hbroadens, hi, hactive⟩ :=
    hv.begins_query h.rooted.tidy hp.toConsistent access typed t
  obtain ⟨i', w₂, hbegin', hbroadens', hi', hactive'⟩ :=
    hw.begins_query h.rooted'.tidy hp.toConsistent access typed t'
  let task : Task := { request := .query access label key, token := t }
  replace hrun : Task.run p budget (polls + 1) { task with suspended := some (.request i) } v₂ =
      (.ready answer, v₁) := (hbegin budget polls).symm.trans hrun
  obtain ⟨result, v₃, hfinishes, rfl, rfl⟩ := Task.finishes_of_run hrun
  have hderived : v₂.kind? i = some .derived := hbroadens.tidy.kind?_node hp.toConsistent hi
  have hbeside : Beside p use N F t t' i i' ρ births v₂ w₂ (.request i) (.request i') :=
    { left := hv.orderly hbroadens hactive
      right := hw.orderly hbroadens' hactive'
      joined := h.broadens hbroadens hbroadens' hv.linked hw.linked
      abreast := .requested ⟨_, hn, hi, hi'⟩ hderived .nobody
      active := by
        rw [hactive, hactive', hv.idle, hw.idle]
        exact .nil
      untroubled := hbroadens.grows.cancelled.trans hv.untroubled
      untroubled' := hbroadens'.grows.cancelled.trans hw.untroubled }
  obtain ⟨result', ρ₁, births₁, w₃, hfinishes', hρ, hanswers, hbeside', helapses, hbirths⟩ :=
    hbeside.finishes hp htr hrealm hfinishes
  obtain ⟨k, hk⟩ := id hfinishes'
  have hreleases := Broadens.releases access hbeside'.joined.rooted.tidy
  have hreleases' := Broadens.releases access hbeside'.joined.rooted'.tidy
  have hle := allocations_le_of_edits hbroadens'.edits
  refine ⟨k + 1, result'.map (Request.replyOf (.query access label key)), ρ₁, births₁,
    access.release w₃, fun budget polls hbudget hpolls => ?_, hρ, fun π hπ => ?_,
    hbeside'.joined.broadens hreleases hreleases' hbeside'.left.linked hbeside'.right.linked,
    ⟨hreleases.grows.cancelled.trans hbeside'.untroubled,
      hreleases'.grows.cancelled.trans hbeside'.untroubled'⟩, ?_⟩
  · obtain ⟨polls, rfl⟩ := Nat.exists_eq_add_of_le' (Nat.le_trans (Nat.le_add_left 1 k) hpolls)
    rw [hbegin']
    exact Task.run_of_finishes { request := .query access label key, token := t' } hk (by omega)
      (by omega)
  · cases hanswers with
    | ok hvalue => exact congrArg (fun x => Except.ok (Reply.value x)) (hvalue π hπ)
    | error e => rfl
  · refine ⟨fun N' hrealm' hcommon => ?_, ?_, fun k hlt => hbirths k (Nat.lt_of_lt_of_le hlt hle)⟩
    · have hsustains : w₂.Sustains N' F w₃ := helapses.sustains hbeside.joined.rooted'
        hbeside.right.linked hbeside.right.recorded hrealm' hcommon
      exact (hbroadens'.grows.sustains.trans hsustains).trans hreleases'.grows.sustains
    · exact Nat.le_trans hle (Nat.le_trans (allocations_le_of_edits hfinishes'.reaches.edits)
        (allocations_le_of_edits hreleases'.edits))

/-- A write that is made in the first world is made in the second one, too. -/
theorem Joined.serves_write {access : Access} {query : QueryId} {key : Key} {x : Value}
    (typed : use query = ⟨.input, key.type, x.type⟩) (hn : N ⟨query, key⟩) (t' : Token)
    {budget polls : Nat} {answer : Except QueryError Reply} {v₁ : World}
    (hrun : Task.run p budget polls { request := .write access query key x, token := t } v =
      (.ready answer, v₁)) :
    ∃ bound answer' ρ₁ w₁, (∀ budget polls, bound ≤ budget → bound ≤ polls →
        Task.run p budget polls { request := .write access query key x, token := t' } w =
          (.ready answer', w₁)) ∧
      ρ ⊆ ρ₁ ∧ Joined p use N F ρ₁ births [] v₁ w₁ ∧ (v₁.cancelled = [] ∧ w₁.cancelled = []) ∧
      w.Serves p use N F births births w₁ := by
  obtain ⟨polls, rfl⟩ : ∃ n, polls = n + 1 := by
    cases polls with
    | zero => cases hrun
    | succ n => exact ⟨n, rfl⟩
  have hkind : (use query).kind = .input := congrArg Usage.kind typed
  obtain ⟨v₂, i, v₃, hv₂, hv₃, hi, hvtidy, hvwrites, hvrun⟩ :=
    hv.runs_write h.rooted.tidy access typed t
  obtain ⟨w₂, i', w₃, hw₂, hw₃, hi', hwtidy, hwwrites, hwrun⟩ :=
    hw.runs_write h.rooted'.tidy access typed t'
  cases (hvrun budget polls).symm.trans hrun
  have hvcopied : v.Broadens p use (v₂.ownCopy x).2 := hv₂.trans (.copies hv₂.tidy x)
  have hwcopied : w.Broadens p use (w₂.ownCopy x).2 := hw₂.trans (.copies hw₂.tidy x)
  have hvfound := hvcopied.trans hv₃
  have hwfound := hwcopied.trans hw₃
  obtain ⟨ρ₁, hρ, hcopied, hx⟩ := (h.broadens hv₂ hw₂ hv.linked hw.linked).ownCopy
    (hv₂.linked hv.linked) (hw₂.linked hw.linked) x
  have hfound := hcopied.broadens hv₃ hw₃ (hvcopied.linked hv.linked) (hwcopied.linked hw.linked)
  have hwritten := hfound.writes hrealm hvwrites hwwrites hvtidy hwtidy (hvfound.linked hv.linked)
    (hwfound.linked hw.linked) (hvfound.recorded hv.recorded) (hwfound.recorded hw.recorded)
    ((hvfound.tidy.kind? hi).trans (congrArg some hkind)) hn hi hi'
    (congrArg Usage.valueType typed ▸ hx) (Nat.le_refl _) (Nat.le_refl _)
  have hreleases' := Broadens.releases access hwtidy
  refine ⟨1, .ok (.revision w₃.revision.next), ρ₁, access.release (w₃.put i' (w₂.ownCopy x).1),
    fun budget polls _ hpolls => ?_, hρ, hwritten.broadens (.releases access hvtidy) hreleases'
      (hvwrites.linked (hvfound.linked hv.linked) hvfound.tidy hvtidy)
      (hwwrites.linked (hwfound.linked hw.linked) hwfound.tidy hwtidy), ⟨?_, ?_⟩, ?_⟩
  · obtain ⟨polls, rfl⟩ := Nat.exists_eq_add_of_le' hpolls
    exact hwrun budget polls
  · exact (Broadens.releases access hvtidy).grows.cancelled.trans
      (hvwrites.cancelled.trans (hvfound.grows.cancelled.trans hv.untroubled))
  · exact hreleases'.grows.cancelled.trans
      (hwwrites.cancelled.trans (hwfound.grows.cancelled.trans hw.untroubled))
  · refine ⟨fun N' hrealm' hcommon => ?_, ?_, fun _ _ => rfl⟩
    · -- nobody else knows the input
      have hforeign : ¬N' ⟨query, key⟩ := fun hn' => by
        cases (hrealm.derived _ (hcommon _ hn hn')).symm.trans hkind
      have hsustains : w₃.Sustains N' F (w₃.put i' (w₂.ownCopy x).1) :=
        hwwrites.sustains (hwfound.recorded hw.recorded) hrealm' hi' hforeign
      exact (hwfound.grows.sustains.trans hsustains).trans hreleases'.grows.sustains
    · have hput : (w₃.put i' (w₂.ownCopy x).1).allocations = w₃.allocations := rfl
      exact Nat.le_trans (allocations_le_of_edits hwfound.edits)
        (hput ▸ allocations_le_of_edits hreleases'.edits)

end Serves

/-- What is answered to a client alone is answered to it in the system that it shares: a query with the
    same answer, up to the numbers of allocations. -/
theorem Joined.serves (hp : p.Anonymous use) (htr : ∀ label key, Transparent ((p label).body key))
    (h : Joined p use (p.ReadsOnly use inputs) (p.Constant use) ρ births [] v w) (hv : v.Resting p)
    (hw : w.Resting p) {request : Request} (hkeeps : request.KeepsTo p use inputs) (t' : Token)
    {budget polls : Nat} {answer : Except QueryError Reply} {v₁ : World}
    (hrun : Task.run p budget polls { request, token := t } v = (.ready answer, v₁)) :
    ∃ bound answer' ρ₁ births₁ w₁, (∀ budget polls, bound ≤ budget → bound ≤ polls →
        Task.run p budget polls { request, token := t' } w = (.ready answer', w₁)) ∧
      ρ ⊆ ρ₁ ∧
      (request.asks = true → ∀ π, ρ₁.Admits π → answer' = answer.map (Reply.rename π)) ∧
      Joined p use (p.ReadsOnly use inputs) (p.Constant use) ρ₁ births₁ [] v₁ w₁ ∧
      (v₁.cancelled = [] ∧ w₁.cancelled = []) ∧
      w.Serves p use (p.ReadsOnly use inputs) (p.Constant use) births births₁ w₁ := by
  have hrealm := p.realm_readsOnly use inputs
  cases hkeeps with
  | write entry typed own =>
    obtain ⟨bound, answer', ρ₁, w₁, hruns, hρ, hrest⟩ := h.serves_write hrealm hv hw typed
      (hp.toConsistent.readsOnly (congrArg Usage.kind typed) own) t' hrun
    exact ⟨bound, answer', ρ₁, births, w₁, hruns, hρ, fun hasks => (by cases hasks), hrest⟩
  | query entry typed own =>
    obtain ⟨bound, answer', ρ₁, births₁, w₁, hruns, hρ, hanswers, hrest⟩ :=
      h.serves_query hp htr hrealm hv hw typed own t' hrun
    exact ⟨bound, answer', ρ₁, births₁, w₁, hruns, hρ, fun _ => hanswers, hrest⟩

end World

end RedGreen
