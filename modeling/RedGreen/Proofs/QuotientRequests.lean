import RedGreen.Proofs.QuotientRuns
import RedGreen.Proofs.Twins

set_option autoImplicit false

/-! # Requests to a quotient

Between two requests, every list that is kept has its own allocation and every value has the type of its
query (`World.Codable`). From there, a request to the quotient of a program does what it does to the
program, poll for poll: it is pending where that one is, and answered what that one is answered, except
that values of a query are coded (`Task.run_quotient`). -/

namespace RedGreen

open Evaluation

variable {p : Program} {use : Usages} {t : Token} {w w' : World} {root i : SlotId} {label : Label}
  {key : Key}

/-! ## Operations of requests -/

namespace World

variable (w)

theorem ownCopy_quotient (v : Value) : (w.quotient p use).ownCopy v =
    ((w.ownCopy v).1, (w.ownCopy v).2.quotient p use) := by
  cases v <;> rfl

theorem put_quotient (i : SlotId) (v : Value) :
    (w.quotient p use).put i v = (w.put i v).quotient p use := by
  have hslots : (w.slots.map (Slot.quotient p)).modify i
        (fun slot => { slot with content := .input (some ⟨v, w.revision.next⟩) }) =
      (w.slots.modify i fun slot =>
        { slot with content := .input (some ⟨v, w.revision.next⟩) }).map (Slot.quotient p) :=
    Slot.map_quotient_modify w.slots fun slot _ => by
      rw [slot.query_quotient, slot.key_quotient]
      rfl
  have hinfo : (w.quotient p use).info i = w.info i := w.info_quotient i
  unfold put
  rw [hinfo]
  show World.event (World.log _ _) _ = _
  simp only [quotient, log, event, note, hslots]

theorem clear_quotient (before : Revision) : (w.quotient p use).clear before =
    ((w.clear before).1, (w.clear before).2.quotient p use) := by
  simp [clear, quotient, setSlots, log, note, List.countP_map, Function.comp_def, Slot.quotient_clear]

theorem clearCache_quotient (query : QueryId) (before : Revision) :
    (w.quotient p use).clearCache query before =
      ((w.clearCache query before).1, (w.clearCache query before).2.quotient p use) := by
  have hslot (slot : Slot) : (if slot.query = query then slot.clear before else slot).quotient p =
      if slot.query = query then (slot.quotient p).clear before else slot.quotient p := by
    split
    · exact slot.quotient_clear before
    · rfl
  simp [clearCache, quotient, setSlots, List.countP_map, Function.comp_def, hslot]

theorem clearSlot_quotient (query : QueryId) (key : Key) (before : Revision) :
    (w.quotient p use).clearSlot query key before =
      ((w.clearSlot query key before).1, (w.clearSlot query key before).2.quotient p use) := by
  unfold clearSlot
  rw [find?_quotient]
  cases w.find? query key with
  | none => rfl
  | some i =>
    have hslot : (w.quotient p use).slots[i]? = (w.slots[i]?).map (Slot.quotient p) := List.getElem?_map ..
    have hslots : (w.slots.map (Slot.quotient p)).modify i (·.clear before) =
        (w.slots.modify i (·.clear before)).map (Slot.quotient p) :=
      Slot.map_quotient_modify w.slots fun slot _ => slot.quotient_clear before
    simp only [hslot]
    cases w.slots[i]? with
    | none => rfl
    | some slot =>
      simp only [Option.map_some, Slot.kind_quotient, Slot.isStale_quotient]
      cases slot.kind with
      | input => rfl
      | derived =>
        simp only [setSlots, quotient, hslots]

variable {w}

theorem write_quotient (ht : Tidy p use w.toSystem) {query : QueryId} {v : Value}
    (typed : use query = ⟨.input, key.type, v.type⟩) :
    (w.quotient p use).write query key v =
      ((w.write query key v).1, (w.write query key v).2.quotient p use) := by
  unfold write
  rw [inputSlot_quotient ht typed]
  generalize w.inputSlot query v.type key = found
  obtain ⟨found, w₁⟩ := found
  cases found with
  | error e => rfl
  | ok i => exact Prod.ext rfl (w₁.put_quotient i v)

theorem inputValue_quotient (ht : Tidy p use w.toSystem) {query : QueryId} {valueType : ValueType}
    (typed : use query = ⟨.input, key.type, valueType⟩) :
    (w.quotient p use).inputValue query valueType key =
      ((w.inputValue query valueType key).1, (w.inputValue query valueType key).2.quotient p use) := by
  have hkey : key.type = (use query).keyType := by rw [typed]
  have hopen := openCache_quotient ht hkey
  rw [Usages.quotient_of_input typed, typed] at hopen
  unfold inputValue
  rw [hopen]
  generalize w.openCache query key.type valueType = opened
  obtain ⟨opened, w₁⟩ := opened
  cases opened with
  | error e => rfl
  | ok u =>
    simp only [find?_quotient]
    cases w₁.find? query key with
    | none => rfl
    | some i =>
      have hslot : (w₁.quotient p use).slots[i]? = (w₁.slots[i]?).map (Slot.quotient p) :=
        List.getElem?_map ..
      simp only [Option.bind_some, hslot]
      cases w₁.slots[i]? with
      | none => rfl
      | some slot =>
        obtain ⟨query', key', content⟩ := slot
        cases content with
        | derived d => rfl
        | input written => cases written <;> rfl

end World

namespace Access

variable (access : Access) (w : World)

theorem admission_quotient (queued : Bool) : access.admission queued (w.quotient p use) =
    ((access.admission queued w).1, (access.admission queued w).2.quotient p use) := by
  cases access with
  | free => rfl
  | blocking =>
    unfold Access.admission
    show (if w.entryLocked then _ else _) = _
    split
    · show (if !queued && w.asyncEntry then _ else _) = _
      split <;> rfl
    · rfl
  | waiting =>
    unfold Access.admission
    show (if w.entryLocked then _ else _) = _
    split <;> rfl

theorem release_quotient : access.release (w.quotient p use) = (access.release w).quotient p use := by
  cases access <;> rfl

end Access

/-! ## Runs -/

/-- Every value that is kept has a code that says what the value says: it has the type of its query, and
    no other list is in its allocation. -/
structure World.Codable (p : Program) (use : Usages) (w : World) : Prop where
  typed : w.WellTyped p use
  coherent : w.Coherent []

/-- An evaluation for a node, and that of the quotient, in a world and its quotient. -/
structure Evaluation.Accords (p : Program) (use : Usages) (root : SlotId) (label : Label) (key : Key)
    (w : World) (e e' : Evaluation) : Prop where
  typed : w.WellTyped p use
  steps : e.Matches p use w root e'
  coherent : ∃ P, e.Holds P ∧ w.Coherent P
  node : w.node? root = some (p.node label key)

/-- Where both stand after some steps from a world. -/
inductive Progress.Accords (p : Program) (use : Usages) (root : SlotId) (label : Label) (key : Key)
    (w₀ : World) : Progress → Progress → Prop
  | running {e e' : Evaluation} {w : World} (accords : e.Accords p use root label key w e')
    (entryLocked : w.entryLocked = w₀.entryLocked) :
    Accords p use root label key w₀ (.running e w) (.running e' (w.quotient p use))
  | finished {r : Except QueryError Stamped} {w : World} (codable : w.Codable p use)
    (value : ∀ x, r = .ok x → x.value.type = (p label).valueType)
    (entryLocked : w.entryLocked = w₀.entryLocked) :
    Accords p use root label key w₀ (.finished r w)
      (.finished (r.map (Stamped.encode (p label))) (w.quotient p use))

/-- Neither of them is ever parked. -/
theorem Progress.Accords.not_parked {progress progress' : Progress}
    (h : Progress.Accords p use root label key w progress progress') :
    (∀ e w, progress ≠ .parked e w) ∧ ∀ e w, progress' ≠ .parked e w := by
  cases h <;> exact ⟨nofun, nofun⟩

theorem Progress.Accords.of_locked {w₀ : World} {progress progress' : Progress}
    (h : Progress.Accords p use root label key w progress progress')
    (hlocked : w.entryLocked = w₀.entryLocked) :
    Progress.Accords p use root label key w₀ progress progress' := by
  cases h with
  | running accords entryLocked => exact .running accords (entryLocked.trans hlocked)
  | finished codable value entryLocked => exact .finished codable value (entryLocked.trans hlocked)

section Runs

variable (hp : p.Respectful use) (hhonest : p.Honest) {e e' : Evaluation}
include hp hhonest

theorem Evaluation.Accords.step (h : e.Accords p use root label key w e') :
    Progress.Accords p use root label key w (e.step p t w)
      (e'.step p.quotient t (w.quotient p use)) := by
  obtain ⟨P, hholds, hcoherent⟩ := h.coherent
  have hagrees : e.Agrees w := by
    rintro a v m hcontrol hm
    obtain ⟨control, frames⟩ := e
    obtain rfl : control = _ := hcontrol
    exact coherent_of_holds hholds hcoherent hm
  have hmatches := step_matches hp h.typed h.steps hagrees (t := t)
  generalize hstep : e.step p t w = progress at hmatches
  generalize e'.step p.quotient t (w.quotient p use) = progress' at hmatches
  cases hmatches with
  | @running e₁ e₁' w₁ typed steps =>
    have hnext : e.Next p t w e₁ w₁ := .inl hstep
    exact .running ⟨typed, steps, hnext.coherent hhonest hholds hcoherent,
      hnext.edits.continues.node? h.node⟩ hnext.moves.persists.entryLocked
  | @finished r w₁ label' key' typed node value =>
    obtain ⟨-, rfl⟩ := eq_answer_of_finished hstep
    have hquery : p label' = p label :=
      hp.query_eq (congrArg Node.query (Option.some.inj (node.symm.trans h.node)))
    rw [hquery] at value ⊢
    exact .finished ⟨typed, hcoherent.sublist (List.nil_sublist P)⟩ value rfl

/-- Polled with the same budget, they come to the same. -/
theorem Evaluation.Accords.advance (h : e.Accords p use root label key w e') (n : Nat) :
    Progress.Accords p use root label key w (e.advance p t n w)
      (e'.advance p.quotient t n (w.quotient p use)) := by
  induction n generalizing e e' w with
  | zero => exact .running h rfl
  | succ n ih =>
    have hstep := h.step hp hhonest (t := t)
    rw [Evaluation.advance, Evaluation.advance]
    generalize e.step p t w = progress at hstep ⊢
    generalize e'.step p.quotient t (w.quotient p use) = progress' at hstep ⊢
    cases hstep with
    | running accords entryLocked => exact (ih accords).of_locked entryLocked
    | finished codable value entryLocked => exact .finished codable value entryLocked

theorem Evaluation.Accords.drive (h : e.Accords p use root label key w e') (n : Nat) :
    Progress.Accords p use root label key w (e.drive p t n w)
      (e'.drive p.quotient t n (w.quotient p use)) := by
  have hadvance := h.advance hp hhonest (t := t) n
  obtain ⟨hparked, hparked'⟩ := hadvance.not_parked
  rwa [drive_eq_advance hparked, drive_eq_advance hparked']

end Runs

/-! ## Beginnings -/

namespace Request

/-- A request to the quotient: a new slot is bound to the equality of codes. -/
noncomputable def quotient (p : Program) : Request → Request
  | .derive label key _ => .derive label key (p.quotient label).equality
  | request => request

/-- The label whose value a request asks for. -/
def asked? : Request → Option Label
  | .query _ label _ => some label
  | .derive label _ _ => some label
  | _ => none

/-- What a request to a program is answered, and what one to its quotient: a value that was asked for is
    coded. -/
def Codes (p : Program) (request : Request) (r r' : Reply) : Prop :=
  match request.asked? with
  | some label =>
    ∃ v, v.type = (p label).valueType ∧ r = .value v ∧ r' = .value ((p label).encode v)
  | none => r' = r

@[simp] theorem access_quotient (request : Request) : (request.quotient p).access = request.access := by
  cases request <;> rfl

theorem replyOf_quotient {request : Request} (h : request.asked? = some label) (x : Stamped) :
    request.replyOf x = .value x.value ∧ (request.quotient p).replyOf x = .value x.value := by
  cases request <;> cases h <;> exact ⟨rfl, rfl⟩

/-- What a request begins, and what it begins in the quotient: the same. -/
inductive BeginsCoded (p : Program) (use : Usages) (w : World) (request : Request) :
    Begun × World → Begun × World → Prop
  | answered {r : Except QueryError Reply} {w' : World} (asked : request.asked? = none)
    (codable : w'.Codable p use) (entryLocked : w'.entryLocked = w.entryLocked) :
    BeginsCoded p use w request (.answered r, w') (.answered r, w'.quotient p use)
  | evaluating {i : SlotId} {label : Label} {key : Key} {w' : World}
    (asked : request.asked? = some label) (codable : w'.Codable p use)
    (node : w'.node? i = some (p.node label key)) (entryLocked : w'.entryLocked = w.entryLocked) :
    BeginsCoded p use w request (.evaluating (.request i), w')
      (.evaluating (.request i), w'.quotient p use)

variable {request : Request}

theorem begin_quotient (hp : p.Respectful use) (ht : Tidy p use w.toSystem)
    (hconsistent : request.Consistent p use) (hasks : request.Asks) :
    (request.quotient p).begin p.quotient (w.quotient p use) =
      ((request.begin p w).1, (request.begin p w).2.quotient p use) := by
  cases request with
  | write access query key value =>
    have htype : (w.ownCopy value).1.type = value.type := (w.alike_ownCopy value).type
    have typed : use query = ⟨.input, key.type, (w.ownCopy value).1.type⟩ := by
      rw [htype]
      exact hconsistent
    have hwrite := World.write_quotient ((w.quiet_ownCopy value).tidy ht) typed
    simp only [quotient, begin, World.ownCopy_quotient, hwrite]
    rfl
  | read query valueType key =>
    simp only [quotient, begin, World.inputValue_quotient ht hconsistent]
    rfl
  | query access label key =>
    simp only [quotient, begin, World.derivedSlot_quotient hp ht hconsistent]
    generalize w.derivedSlot (p label).id (p label).valueType key label (p label).equality = found
    obtain ⟨found, w₁⟩ := found
    cases found <;> rfl
  | derive label key equality =>
    obtain ⟨typed, rfl⟩ := hconsistent
    simp only [quotient, begin, World.derivedSlot_quotient hp ht typed]
    generalize w.derivedSlot (p label).id (p label).valueType key label (p label).equality = found
    obtain ⟨found, w₁⟩ := found
    cases found <;> rfl
  | clear access before =>
    simp only [quotient, begin, World.clear_quotient]
  | prepare | touch => exact hasks.elim

/-- The world is codable after a request has begun. -/
theorem begin_codable (hp : p.Respectful use) (h : w.Codable p use)
    (hconsistent : request.Consistent p use) : (request.begin p w).2.Codable p use := by
  refine ⟨?_, h.coherent.begin p request⟩
  have hbegins := Request.begin_spec hp.toConsistent h.typed.tidy hconsistent
  generalize request.begin p w = out at hbegins
  cases hbegins with
  | write alike finds kind tidy writes =>
    refine (h.typed.grows finds.tidy finds.toGrows).of_nodes tidy
      (fun j n hj => (writes.node j).trans hj) fun j m hm => .inl ((writes.memo j).symm.trans hm)
  | read agree tidy grows => exact h.typed.grows tidy grows
  | query finds => exact h.typed.grows finds.tidy finds.toGrows
  | derive finds => exact h.typed.grows finds.tidy finds.toGrows
  | prepare finds => exact h.typed.grows finds.tidy finds.toGrows
  | touch label_id finds => exact h.typed.grows finds.tidy finds.toGrows
  | untouched tidy grows => exact h.typed.grows tidy grows
  | clear tidy clears => exact h.typed.clears tidy clears

theorem begins_coded (hp : p.Respectful use) (h : w.Codable p use)
    (hconsistent : request.Consistent p use) (hasks : request.Asks) :
    request.BeginsCoded p use w (request.begin p w)
      ((request.quotient p).begin p.quotient (w.quotient p use)) := by
  have hcodable := begin_codable hp h hconsistent
  have hbegins := Request.begin_spec hp.toConsistent h.typed.tidy hconsistent
  rw [begin_quotient hp h.typed.tidy hconsistent hasks]
  generalize request.begin p w = out at hbegins hcodable
  cases hbegins with
  | write _ _ _ _ _ _ entryLocked => exact .answered rfl hcodable entryLocked
  | read _ _ _ _ entryLocked => exact .answered rfl hcodable entryLocked
  | query finds => exact .evaluating rfl hcodable finds.found finds.entryLocked
  | derive finds => exact .evaluating rfl hcodable finds.found finds.entryLocked
  | clear _ _ _ entryLocked => exact .answered rfl hcodable entryLocked
  | prepare | touch | untouched => exact hasks.elim

end Request

/-! ## Tasks -/

/-- The entry lock and what observers see do not matter. -/
theorem World.Codable.alters (h : w.Codable p use) (halters : w.Alters w')
    (hle : w.allocations ≤ w'.allocations) : w'.Codable p use where
  typed := h.typed.grows (halters.tidy h.typed.tidy) halters.grows
  coherent := h.coherent.drops (fun i _ hm => (halters.grows.memo i).symm.trans hm)
    halters.grows.written hle

theorem World.Codable.release (h : w.Codable p use) (access : Access) :
    (access.release w).Codable p use :=
  h.alters (access.alters_release w) (by cases access <;> exact Nat.le_refl _)

/-- What a task comes to, and the task of the quotient: both wait, or both are answered. -/
inductive Poll.Codes (p : Program) (use : Usages) (request : Request) :
    Poll × World → Poll × World → Prop
  | ready {r r' : Except QueryError Reply} {w : World} (agree : Agree (request.Codes p) r r')
    (codable : w.Codable p use) (free : w.entryLocked = false) :
    Codes p use request (.ready r, w) (.ready r', w.quotient p use)
  | pending {woken woken' : Bool} {task task' : Task} {w w' : World} :
    Codes p use request (.pending woken task, w) (.pending woken' task', w')

namespace Task

variable (hp : p.Respectful use) (hhonest : p.Honest) {request : Request}
include hp hhonest

/-- Polled with the same limits, the evaluations of a request come to the same. -/
theorem run_suspended_quotient {queued : Bool} (hasked : request.asked? = some label)
    (hrelease : ∀ w' : World, w'.entryLocked = w.entryLocked →
      (request.access.release w').entryLocked = false) {e e' : Evaluation}
    (h : e.Accords p use root label key w e') (budget polls : Nat) :
    Poll.Codes p use request (run p budget polls ⟨request, t, some e, queued⟩ w)
      (run p.quotient budget polls ⟨request.quotient p, t, some e', queued⟩ (w.quotient p use)) := by
  induction polls generalizing e e' w with
  | zero => exact .pending
  | succ polls ih =>
    obtain ⟨progress, progress', hresume, hresume', haccords⟩ : ∃ progress progress',
        resume p budget ⟨request, t, some e, queued⟩ e w = settle ⟨request, t, some e, queued⟩ progress ∧
        resume p.quotient budget ⟨request.quotient p, t, some e', queued⟩ e' (w.quotient p use) =
          settle ⟨request.quotient p, t, some e', queued⟩ progress' ∧
        Progress.Accords p use root label key w progress progress' := by
      refine ⟨_, _, rfl, rfl, ?_⟩
      simp only [Request.access_quotient]
      cases request.access with
      | blocking => exact h.drive hp hhonest budget
      | free | waiting => exact h.advance hp hhonest budget
    rw [run, run]
    simp only [poll, hresume, hresume']
    cases haccords with
    | running accords entryLocked =>
      exact ih (fun w' hw' => hrelease w' (hw'.trans entryLocked)) accords
    | @finished r w₁ codable value entryLocked =>
      have hagree : Agree (request.Codes p) (r.map request.replyOf)
          ((r.map (Stamped.encode (p label))).map (request.quotient p).replyOf) := by
        cases r with
        | error e => exact .error e
        | ok x =>
          obtain ⟨hreply, -⟩ := request.replyOf_quotient (p := p) hasked x
          obtain ⟨-, hcoded⟩ := request.replyOf_quotient (p := p) hasked (x.encode (p label))
          refine .ok ?_
          rw [hreply, hcoded, Request.Codes, hasked]
          exact ⟨x.value, value x rfl, rfl, rfl⟩
      simp only [settle, Request.access_quotient, Access.release_quotient]
      exact .ready hagree (codable.release _) (hrelease w₁ entryLocked)

/-- With the same limits, a request to the quotient comes to what the request comes to. -/
theorem run_quotient (h : w.Codable p use) (hfree : w.entryLocked = false)
    (hconsistent : request.Consistent p use) (hasks : request.Asks) (budget polls : Nat) :
    Poll.Codes p use request (run p budget polls { request, token := t } w)
      (run p.quotient budget polls { request := request.quotient p, token := t }
        (w.quotient p use)) := by
  cases polls with
  | zero => exact .pending
  | succ polls =>
    obtain ⟨w₁, hentry, halters, hrelease⟩ := request.access.admission_of_unlocked false hfree
    have hentry' : Access.admission (request.quotient p).access false (w.quotient p use) =
        (.admitted, w₁.quotient p use) := by
      rw [Request.access_quotient, Access.admission_quotient, hentry]
    have hle : w.allocations ≤ w₁.allocations := by
      have hedits := request.access.edits_admission false (p := p) w
      rw [hentry] at hedits
      exact World.allocations_le_of_edits hedits
    have hbegins := Request.begins_coded hp (h.alters halters hle) hconsistent hasks
    generalize hbegin : request.begin p w₁ = out at hbegins
    generalize hbegin' : (request.quotient p).begin p.quotient (w₁.quotient p use) = out' at hbegins
    cases hbegins with
    | @answered r w₂ asked codable entryLocked =>
      rw [run_of_answered rfl hentry hbegin, run_of_answered rfl hentry' hbegin',
        Request.access_quotient, Access.release_quotient]
      refine .ready ?_ (codable.release _) (hrelease w₂ entryLocked)
      cases r with
      | error e => exact .error e
      | ok reply => exact .ok (by rw [Request.Codes, asked])
    | @evaluating i label key w₂ asked codable node entryLocked =>
      rw [run_of_begin rfl hentry hbegin, run_of_begin (p := p.quotient) rfl hentry' hbegin']
      have haccords : (Evaluation.request i).Accords p use i label key w₂ (.request i) :=
        ⟨codable.typed, .intro node .fetch .root, ⟨[], .fetch .nil, codable.coherent⟩, node⟩
      exact run_suspended_quotient hp hhonest asked
        (fun w' hw' => hrelease w' (hw'.trans entryLocked)) haccords budget _

end Task

end RedGreen
