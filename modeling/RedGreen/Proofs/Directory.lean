import Mathlib.Data.List.Nodup
import RedGreen.Proofs.Edits

set_option autoImplicit false

/-! # The directory of caches and slots

A cache belongs to one identity and a slot to one node. The directory of a system is *in order* if no
two caches belong to the same identity, no two slots belong to the same node, and every slot has a
key of the type of its cache and, if it is computed, is bound to a query of that identity and with the
types of that cache. No edit breaks this, so it holds in every state that a client can bring about,
also in the midst of an evaluation. -/

namespace RedGreen

open Evaluation

variable {p : Program}

/-! ## Slots and their nodes -/

/-- The node that a slot belongs to. -/
def Slot.node (slot : Slot) : Node := ⟨slot.query, slot.key⟩

@[simp] theorem Slot.node_blank (slot : Slot) : slot.blank.node = slot.node := by
  obtain ⟨query, key, content⟩ := slot
  cases content <;> rfl

theorem Slot.BoundTo.of_blank {slot : Slot} {valueType : ValueType}
    (h : slot.blank.BoundTo p valueType) : slot.BoundTo p valueType := by
  obtain ⟨query, key, content⟩ := slot
  cases content with
  | input written => exact fun _ hd => by cases hd
  | derived d =>
    intro d' hd
    cases hd
    exact h d.reset rfl

theorem Slot.BoundTo.blank {slot : Slot} {valueType : ValueType} (h : slot.BoundTo p valueType) :
    slot.blank.BoundTo p valueType := by
  obtain ⟨query, key, content⟩ := slot
  cases content with
  | input written => exact fun _ hd => by cases hd
  | derived d =>
    intro d' hd
    cases hd
    exact h d rfl

/-- The nodes of the slots, in the order in which the slots were made. -/
def System.nodes (s : System) : List Node := s.slots.map Slot.node

theorem System.node?_eq (s : System) (i : SlotId) : s.node? i = s.nodes[i]? := by
  rw [nodes, List.getElem?_map]
  rfl

theorem System.nodes_eq (s : System) : s.nodes = (s.slots.map Slot.blank).map Slot.node := by
  simp [nodes, Function.comp_def]

namespace World

variable {w w' : World}

/-- A blank slot belongs in the cache of its identity. -/
def Shelves (p : Program) (w : World) (blank : Slot) : Prop :=
  ∃ valueType, w.cache? blank.query = some ⟨blank.query, blank.key.type, valueType⟩ ∧
    blank.BoundTo p valueType

/-- The caches and the slots of a world are in order. -/
structure InDirectory (p : Program) (w : World) : Prop where
  caches : (w.caches.map Cache.query).Nodup
  nodes : w.nodes.Nodup
  shelves : ∀ blank ∈ w.slots.map Slot.blank, w.Shelves p blank

theorem inDirectory_new (memoize : Bool) : ({ memoize } : World).InDirectory p where
  caches := .nil
  nodes := .nil
  shelves _ h := by cases h

/-! ## What keeps it in order -/

theorem InDirectory.of_blank (h : w.InDirectory p) (hcaches : w'.caches = w.caches)
    (hblank : w'.slots.map Slot.blank = w.slots.map Slot.blank) : w'.InDirectory p where
  caches := hcaches ▸ h.caches
  nodes := by
    rw [System.nodes_eq, hblank, ← System.nodes_eq]
    exact h.nodes
  shelves blank hmem := by
    rw [hblank] at hmem
    rw [Shelves, System.cache?, hcaches]
    exact h.shelves blank hmem

/-- The cache of an identity stays its cache when others are made. -/
theorem cache?_append {caches : List Cache} {query : QueryId} {cache : Cache}
    (h : w.cache? query = some cache) :
    (w.setCaches (w.caches ++ caches)).cache? query = some cache := by
  show (w.caches ++ caches).find? _ = _
  rw [List.find?_append, show w.caches.find? _ = _ from h]
  rfl

theorem not_mem_of_cache?_eq_none {query : QueryId} (h : w.cache? query = none) :
    query ∉ w.caches.map Cache.query := by
  intro hmem
  obtain ⟨cache, hcache, rfl⟩ := List.mem_map.1 hmem
  simpa using List.find?_eq_none.1 h cache hcache

/-- No edit breaks the order of the directory. -/
theorem InDirectory.edit (h : w.InDirectory p) (hedit : w.Edit p w') : w'.InDirectory p := by
  cases hedit with
  | @opens cache unknown =>
    refine ⟨?_, h.nodes, fun blank hmem => ?_⟩
    · show ((w.caches ++ [cache]).map Cache.query).Nodup
      rw [List.map_append, List.nodup_append]
      refine ⟨h.caches, List.nodup_singleton _, fun a ha b hb hab => ?_⟩
      rw [List.mem_singleton.1 hb] at hab
      exact not_mem_of_cache?_eq_none unknown (hab ▸ ha)
    · obtain ⟨valueType, hcache, hbound⟩ := h.shelves blank hmem
      exact ⟨valueType, cache?_append hcache, hbound⟩
  | @grows fresh valueType bound cached unknown =>
    refine ⟨h.caches, ?_, fun blank hmem => ?_⟩
    · show ((w.slots ++ [fresh]).map Slot.node).Nodup
      rw [List.map_append, List.nodup_append]
      refine ⟨h.nodes, List.nodup_singleton _, fun n hn m hm hnm => ?_⟩
      rw [List.mem_singleton.1 hm] at hnm
      obtain ⟨i, hi⟩ := List.getElem?_of_mem (show n ∈ w.nodes from hn)
      exact System.find?_eq_none unknown i (by rw [System.node?_eq, hi, hnm]; rfl)
    · have hmem : blank ∈ (w.slots ++ [fresh]).map Slot.blank := hmem
      rw [List.map_append, List.mem_append] at hmem
      rcases hmem with hmem | hmem
      · exact h.shelves blank hmem
      · obtain rfl := List.mem_singleton.1 hmem
        refine ⟨valueType, ?_, bound.blank⟩
        obtain ⟨query, key, content⟩ := fresh
        cases content <;> exact cached
  | revises blank => exact h.of_blank rfl blank
  | notes | issues | cancels | allocates | enters | leaves | locks => exact h.of_blank rfl rfl

theorem Edits.inDirectory (h : w.Edits p w') (hw : w.InDirectory p) : w'.InDirectory p :=
  h.preserves (fun _ _ hedit hbefore => hbefore.edit hedit) hw

/-- Caches and slots are made at the end only. A cache keeps its types, and a slot what it was made
    for. -/
structure Continues (w w' : World) : Prop where
  caches : w.caches <+: w'.caches
  slots : w.slots.map Slot.blank <+: w'.slots.map Slot.blank

theorem Continues.trans {w'' : World} (h : w.Continues w') (h' : w'.Continues w'') :
    w.Continues w'' := ⟨h.caches.trans h'.caches, h.slots.trans h'.slots⟩

theorem Edits.continues (h : w.Edits p w') : w.Continues w' := by
  refine ⟨?_, h.prefix⟩
  refine h.preserves (motive := fun w' => w.caches <+: w'.caches) (fun w₁ w₂ hedit hprefix => ?_)
    (List.prefix_refl _)
  cases hedit with
  | opens => exact hprefix.trans (List.prefix_append _ _)
  | notes | grows | revises | issues | cancels | allocates | enters | leaves | locks => exact hprefix

theorem Continues.node? (h : w.Continues w') {i : SlotId} {n : Node} (hi : w.node? i = some n) :
    w'.node? i = some n := by
  rw [System.node?_eq, System.nodes_eq] at hi ⊢
  obtain ⟨more, hmore⟩ := h.slots
  rw [← hmore, List.map_append, List.getElem?_append_left]
  · exact hi
  · exact (List.getElem?_eq_some_iff.1 hi).1

/-! ## What the order tells -/

namespace InDirectory

variable (h : w.InDirectory p) {i j : SlotId} {n : Node} {slot : Slot}
include h

/-- No two slots belong to the same node. -/
theorem distinct (hi : w.node? i = some n) (hj : w.node? j = some n) : i = j := by
  rw [System.node?_eq] at hi hj
  exact (List.getElem?_inj (List.getElem?_eq_some_iff.1 hi).1 h.nodes).1 (hi.trans hj.symm)

/-- A slot is found under its identity and key. -/
theorem find?_eq (hi : w.node? i = some n) : w.find? n.query n.key = some i := by
  cases hfind : w.find? n.query n.key with
  | none => exact absurd hi (System.find?_eq_none hfind i)
  | some j => rw [h.distinct hi (System.node?_of_find? hfind)]

/-- Every slot has a key of the type of its cache, and is bound to a query with its types. -/
theorem cached (hslot : w.slots[i]? = some slot) : ∃ valueType,
    w.cache? slot.query = some ⟨slot.query, slot.key.type, valueType⟩ ∧
      slot.BoundTo p valueType := by
  obtain ⟨valueType, hcache, hbound⟩ :=
    h.shelves slot.blank (List.mem_map_of_mem (List.mem_of_getElem? hslot))
  refine ⟨valueType, ?_, hbound.of_blank⟩
  obtain ⟨query, key, content⟩ := slot
  cases content <;> exact hcache

end InDirectory

end World

/-! ## Sessions -/

namespace Session

theorem continues_report (limits : Limits) (s : Session) (step : Step) :
    s.world.Continues (s.report p limits step).2.world := by
  obtain ⟨hcaches, hslots⟩ := (edits_step p limits s step).continues
  exact ⟨hcaches, hslots⟩

theorem continues_after (limits : Limits) (s : Session) (steps : List Step) :
    s.world.Continues (s.after p limits steps).world := by
  induction steps generalizing s with
  | nil => exact ⟨List.prefix_refl _, List.prefix_refl _⟩
  | cons step steps ih => exact (continues_report limits s step).trans (ih _)

/-- A system goes on keeping values, or keeping none. -/
theorem memoize_after (p : Program) (limits : Limits) (s : Session) (steps : List Step) :
    (s.after p limits steps).world.memoize = s.world.memoize := by
  induction steps generalizing s with
  | nil => rfl
  | cons step steps ih => exact (ih _).trans (edits_step p limits s step).memoize

theorem inDirectory_report {s : Session} (limits : Limits) (step : Step)
    (h : s.world.InDirectory p) : (s.report p limits step).2.world.InDirectory p :=
  World.InDirectory.of_blank ((edits_step p limits s step).inDirectory h) rfl rfl

theorem inDirectory_after {s : Session} (limits : Limits) (steps : List Step)
    (h : s.world.InDirectory p) : (s.after p limits steps).world.InDirectory p := by
  induction steps generalizing s with
  | nil => exact h
  | cons step steps ih => exact ih (inDirectory_report limits step h)

end Session

end RedGreen
