import RedGreen.Proofs.Keeping

set_option autoImplicit false

/-! # Values that come from no input

Some nodes `F` refer only to each other and to no input. Such a value is computed once: nothing that it
comes from ever changes, so what is kept stays (`Rooted.preserves`). And since its body is told nothing
but the values of other such nodes and the numbers of its own allocations, the run that has computed it
can be replayed from what the world keeps (`World.Replays`). For this it has to be known which slot has
made an allocation; `births` tells it.

`Program.Realm` says how such nodes lie among other nodes that refer to nothing outside. -/

namespace RedGreen

open Evaluation Relation

variable {p : Program} {use : Usages} {N F : Node → Prop} {w w' w'' : World} {i j : SlotId} {m : Memo}
  {births births' : Nat → Option SlotId} {busy : List SlotId}

/-- Nodes in `N` refer only to each other, and so do those in `F`, none of which is an input. -/
structure Program.Realm (p : Program) (use : Usages) (N F : Node → Prop) : Prop where
  closed : ∀ m n, N m → p.Refers m n → N n
  constant : ∀ m n, F m → p.Refers m n → F n
  within : ∀ n, F n → N n
  derived : ∀ n, F n → (use n.query).kind = .derived

namespace World

/-- Whatever is recorded by a slot of such a node belongs to such a node. -/
theorem Recorded.closed (h : w.Recorded p) (hN : ∀ m n, N m → p.Refers m n → N n) {n : Node}
    (hn : N n) (hi : w.node? i = some n) (hrecords : w.Records i j) :
    ∃ n', N n' ∧ w.node? j = some n' := by
  obtain ⟨m, hm, hj⟩ := hrecords
  obtain ⟨n₁, n', hn₁, hn', hrefers⟩ := h i m hm j hj
  obtain rfl := Option.some.inj (hn₁.symm.trans hi)
  exact ⟨n', hN n₁ n' hn hrefers, hn'⟩

/-- So does whatever it comes from. -/
theorem Recorded.closed_path (h : w.Recorded p) (hN : ∀ m n, N m → p.Refers m n → N n) {n : Node}
    (hn : N n) (hi : w.node? i = some n) (hpath : ReflTransGen w.Records i j) :
    ∃ n', N n' ∧ w.node? j = some n' := by
  induction hpath with
  | refl => exact ⟨n, hn, hi⟩
  | tail _ hlast ih =>
    obtain ⟨n', hn', hj⟩ := ih
    exact h.closed hN hn' hj hlast

/-! ## What is kept for constants -/

/-- What is kept for the nodes in `F` is still kept. -/
structure Preserves (F : Node → Prop) (w w' : World) : Prop where
  node : ∀ i n, w.node? i = some n → w'.node? i = some n
  memo : ∀ i n m, F n → w.node? i = some n → w.memo? i = some m → ∃ m', w'.memo? i = some m' ∧
    m'.toStamped = m.toStamped ∧ m'.deps = m.deps

theorem Rooted.preserves (h : w.Rooted p use F) (he : w.Elapses N busy w') (hlinked : w.Linked) :
    w.Preserves F w' where
  node := he.node
  memo i n m hF hi hm := by
    obtain ⟨m', hm', hstamped, hdeps, -⟩ := he.kept hlinked (h.firm i n m hi hm (.inr hF)) hm
    exact ⟨m', hm', hstamped, hdeps⟩

theorem Grows.preserves (h : w.Grows w') : w.Preserves F w' :=
  ⟨h.node, fun i _ m _ _ hm => ⟨m, (h.memo i).trans hm, rfl, rfl⟩⟩

/-- A run of the body of a slot that is told nothing but what is kept for nodes in `F`, and numbers of
    which the slot has made the allocations, one after the other: what is left of the body, what it has
    recorded, and a bound of the numbers so far. -/
inductive Replays (p : Program) (F : Node → Prop) (births : Nat → Option SlotId) (w : World) (i : SlotId)
    (start : Body) : Body → List SlotId → Nat → Prop
  | starts : Replays p F births w i start start [] 0
  | checks {next : Except QueryError Unit → Body} {deps : List SlotId} {k : Nat}
    (run : Replays p F births w i start (.perform .check next) deps k) :
    Replays p F births w i start (next (.ok ())) deps k
  | allocates {next : Nat → Body} {deps : List SlotId} {k n : Nat}
    (run : Replays p F births w i start (.perform .allocate next) deps k) (later : k ≤ n)
    (born : births n = some i) : Replays p F births w i start (next n) deps (n + 1)
  | calls {mode : CallMode} {label : Label} {key : Key} {next : Except QueryError Value → Body}
    {deps : List SlotId} {k : Nat} {j : SlotId} {m : Memo}
    (run : Replays p F births w i start (.call mode label key next) deps k)
    (constant : F (p.node label key)) (found : w.node? j = some (p.node label key))
    (memo : w.memo? j = some m) :
    Replays p F births w i start (next (.ok m.value)) (recordOnce j deps) k
  | yields {next : Body} {deps : List SlotId} {k : Nat}
    (run : Replays p F births w i start (.yield next) deps k) :
    Replays p F births w i start next deps k

theorem Replays.mono {start b : Body} {deps : List SlotId} {k : Nat}
    (h : w.Replays p F births i start b deps k) (hw : w.Preserves F w')
    (hbirths : ∀ n, births n = some i → births' n = some i) :
    w'.Replays p F births' i start b deps k := by
  induction h with
  | starts => exact .starts
  | checks _ ih => exact .checks ih
  | allocates _ later born ih => exact .allocates ih later (hbirths _ born)
  | calls _ constant found memo ih =>
    obtain ⟨m', hm', hstamped, -⟩ := hw.memo _ _ _ constant found memo
    rw [← congrArg Stamped.value hstamped]
    exact .calls ih constant (hw.node _ _ found) hm'
  | yields _ ih => exact .yields ih

/-- Whatever is kept for the nodes in `F` comes from a run that can be replayed. -/
structure Explains (p : Program) (F : Node → Prop) (births : Nat → Option SlotId) (w : World) :
    Prop where
  bound : ∀ n i, births n = some i → n < w.allocations
  replays : ∀ i label key m, F (p.node label key) → w.node? i = some (p.node label key) →
    w.memo? i = some m →
    ∃ k, w.Replays p F births i ((p label).body key) (.done (.ok m.value)) m.deps k

/-- The numbers of a run are those of allocations that have been made. -/
theorem Replays.bound_le {start b : Body} {deps : List SlotId} {k : Nat}
    (h : w.Replays p F births i start b deps k) (hw : w.Explains p F births) : k ≤ w.allocations := by
  induction h with
  | starts => exact Nat.zero_le _
  | checks _ ih | calls _ _ _ _ ih | yields _ ih => exact ih
  | allocates _ _ born _ => exact hw.bound _ _ born

theorem explains_new (memoize : Bool) : ({ memoize } : World).Explains p F fun _ => none :=
  ⟨nofun, fun _ _ _ _ _ _ hm => by cases hm⟩

/-- What is kept still comes from such runs, if this is so of what is new. -/
theorem Explains.mono (h : w.Explains p F births) (hw : w.Preserves F w')
    (hbirths : ∀ n i, births n = some i → births' n = some i)
    (hbound : ∀ n i, births' n = some i → n < w'.allocations)
    (hnew : ∀ i label key m', F (p.node label key) → w'.node? i = some (p.node label key) →
      w'.memo? i = some m' → (∃ m, w.memo? i = some m) ∨
      ∃ k, w'.Replays p F births' i ((p label).body key) (.done (.ok m'.value)) m'.deps k) :
    w'.Explains p F births' where
  bound := hbound
  replays i label key m' hF hi hm' := by
    rcases hnew i label key m' hF hi hm' with ⟨m, hm⟩ | hreplays
    · obtain ⟨n, hn⟩ := exists_node_of_memo hm
      obtain rfl := Option.some.inj ((hw.node i n hn).symm.trans hi)
      obtain ⟨m₁, hm₁, hstamped, hdeps⟩ := hw.memo i _ m hF hn hm
      obtain rfl := Option.some.inj (hm₁.symm.trans hm')
      obtain ⟨k, hreplays⟩ := h.replays i label key m hF hn hm
      rw [congrArg Stamped.value hstamped, hdeps]
      exact ⟨k, hreplays.mono hw fun n => hbirths n i⟩
    · exact hreplays

/-- Nothing is new if the memos are those of before. -/
theorem Explains.keeps (h : w.Explains p F births) (hw : w.Preserves F w')
    (hle : w.allocations ≤ w'.allocations)
    (hmemo : ∀ i m', w'.memo? i = some m' → ∃ m, w.memo? i = some m) : w'.Explains p F births :=
  h.mono hw (fun _ _ hn => hn) (fun n i hn => Nat.lt_of_lt_of_le (h.bound n i hn) hle)
    fun i _ _ m' _ _ hm' => .inl (hmemo i m' hm')

end World

end RedGreen
