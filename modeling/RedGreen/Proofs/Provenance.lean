import RedGreen.Proofs.Steps
import Mathlib.Data.List.Induction

set_option autoImplicit false

/-! # Where values come from

A run of a body leaves a list of reads: which slot was read, for what, and with which reply. The
reads determine the run (`Follows`) and its dependencies. If all reads of a run *match* the present
inputs, the body yields the same result on them (`Follows.result`); so a memo is right if its reads
match.

What is known later about a read is `Seen`. Say the reader's stamp is `r`: it is known to be valid
up to `r`. At the present revision the read matches. After that the stamps of what was read have to
tell: if they say that it has not changed after `r`, its value is still the one that was seen. -/

namespace RedGreen

variable {p : Program} {use : Usages} {same : Indistinct} {yields : Prop}

/-! ## Reads -/

/-- What was asked for. -/
inductive Source where
  | input (query : QueryId) (key : Key)
  | derived (label : Label) (key : Key)

/-- The node that was asked for. -/
def Source.node (p : Program) : Source → Node
  | .input query key => ⟨query, key⟩
  | .derived label key => p.node label key

/-- What was asked for is used as its identity is used. -/
def Source.Typed (p : Program) (use : Usages) : Source → Prop
  | .input query _ => (use query).kind = .input
  | .derived label key => key.type = (use (p label).id).keyType

/-- A read of a running body. -/
structure Read where
  slot : SlotId
  source : Source
  reply : Except QueryError Value

/-- The dependencies that reads leave. -/
def dependencies (reads : List Read) : List SlotId :=
  reads.foldl (fun deps read => recordOnce read.slot deps) []

@[simp] theorem dependencies_nil : dependencies [] = [] := rfl

@[simp] theorem dependencies_concat (reads : List Read) (read : Read) :
    dependencies (reads ++ [read]) = recordOnce read.slot (dependencies reads) := by
  simp [dependencies]

theorem mem_dependencies {reads : List Read} {i : SlotId} :
    i ∈ dependencies reads ↔ ∃ read ∈ reads, read.slot = i := by
  induction reads using List.reverseRecOn with
  | nil => simp
  | append_singleton reads read ih =>
    rw [dependencies_concat, mem_recordOnce, ih]
    constructor
    · rintro (⟨read', hmem, hslot⟩ | rfl)
      · exact ⟨read', List.mem_append_left _ hmem, hslot⟩
      · exact ⟨read, by simp, rfl⟩
    · rintro ⟨read', hmem, hslot⟩
      rcases List.mem_append.1 hmem with hmem | hmem
      · exact .inl ⟨read', hmem, hslot⟩
      · exact .inr (List.mem_singleton.1 hmem ▸ hslot.symm)

theorem dependencies_prefix (reads reads' : List Read) :
    dependencies reads <+: dependencies (reads ++ reads') := by
  induction reads' using List.reverseRecOn with
  | nil => simp
  | append_singleton reads' read ih =>
    rw [← List.append_assoc, dependencies_concat]
    unfold recordOnce
    split
    · exact ih
    · exact ih.trans (List.prefix_append _ _)

/-- One more read is either of a slot that was read before, or of the next dependency. -/
theorem dependencies_next {reads reads' : List Read} {read : Read} {rest : List SlotId}
    (h : dependencies (reads ++ read :: reads') = dependencies reads ++ rest) :
    read.slot ∈ dependencies reads ∧ dependencies (reads ++ [read]) = dependencies reads ∨
      ∃ rest', rest = read.slot :: rest' ∧
        dependencies (reads ++ [read]) = dependencies reads ++ [read.slot] := by
  by_cases hmem : read.slot ∈ dependencies reads
  · exact .inl ⟨hmem, by rw [dependencies_concat, recordOnce, if_pos hmem]⟩
  · have hnext : dependencies (reads ++ [read]) = dependencies reads ++ [read.slot] := by
      rw [dependencies_concat, recordOnce, if_neg hmem]
    have hprefix := dependencies_prefix (reads ++ [read]) reads'
    rw [List.append_assoc, List.singleton_append, h, hnext, List.prefix_append_right_inj] at hprefix
    obtain ⟨rest', rfl⟩ := hprefix
    exact .inr ⟨rest', rfl, hnext⟩

/-- The first read of a dependency comes after reads of earlier dependencies only. -/
theorem exists_read_of_dependencies {reads : List Read} {done todo : List SlotId} {dep : SlotId}
    (h : dependencies reads = done ++ dep :: todo) :
    ∃ before read after, reads = before ++ read :: after ∧ read.slot = dep ∧
      ∀ r ∈ before, r.slot ∈ done := by
  -- the reads that are left, after some whose slots are done
  have hgo (before after : List Read) (done' : List SlotId) (hreads : reads = before ++ after)
      (hdone : done = dependencies before ++ done') : ∃ before read after,
        reads = before ++ read :: after ∧ read.slot = dep ∧ ∀ r ∈ before, r.slot ∈ done := by
    induction after generalizing before done' with
    | nil =>
      have hlength := congrArg List.length h
      rw [hreads, hdone, List.append_nil] at hlength
      simp at hlength
    | cons read after ih =>
      have hrest : reads = (before ++ [read]) ++ after := by simp [hreads]
      have hnext := h
      rw [hreads, hdone, List.append_assoc] at hnext
      rcases dependencies_next hnext with ⟨-, hsame⟩ | ⟨rest, hfirst, hnew⟩
      · exact ih _ done' hrest (hsame ▸ hdone)
      · cases done' with
        | nil =>
          obtain ⟨hslot, -⟩ := List.cons.inj hfirst
          refine ⟨before, read, after, hreads, hslot.symm, fun r hr => ?_⟩
          rw [hdone, List.append_nil]
          exact mem_dependencies.2 ⟨r, hr, rfl⟩
        | cons i done' =>
          obtain ⟨hslot, -⟩ := List.cons.inj hfirst
          obtain rfl : i = read.slot := hslot
          refine ih _ done' hrest ?_
          rw [hnew, hdone, List.append_assoc, List.singleton_append]
  exact hgo [] reads done rfl rfl

/-! ## Runs and their reads -/

/-- A body has come, with some reads, to what is left of it. -/
inductive Follows : Body → List Read → Body → Prop
  | refl (b : Body) : Follows b [] b
  | read {query : QueryId} {valueType : ValueType} {key : Key}
    {next : Except QueryError Value → Body} {b : Body} {reads : List Read} (slot : SlotId)
    (reply : Except QueryError Value) (h : Follows (next reply) reads b) :
    Follows (.perform (.read query valueType key) next) (⟨slot, .input query key, reply⟩ :: reads) b
  | check {next : Except QueryError Unit → Body} {b : Body} {reads : List Read}
    (h : Follows (next (.ok ())) reads b) : Follows (.perform .check next) reads b
  | allocate {next : Nat → Body} {b : Body} {reads : List Read} (n : Nat)
    (h : Follows (next n) reads b) : Follows (.perform .allocate next) reads b
  | yield {next b : Body} {reads : List Read} (h : Follows next reads b) :
    Follows (.yield next) reads b
  | call {mode : CallMode} {label : Label} {key : Key} {next : Except QueryError Value → Body}
    {b : Body} {reads : List Read} (slot : SlotId) (reply : Except QueryError Value)
    (h : Follows (next reply) reads b) :
    Follows (.call mode label key next) (⟨slot, .derived label key, reply⟩ :: reads) b

theorem Follows.trans {b c d : Body} {reads reads' : List Read} (h : Follows b reads c)
    (h' : Follows c reads' d) : Follows b (reads ++ reads') d := by
  induction h with
  | refl b => exact h'
  | read slot reply _ ih => exact .read slot reply (ih h')
  | check _ ih => exact .check (ih h')
  | allocate n _ ih => exact .allocate n (ih h')
  | yield _ ih => exact .yield (ih h')
  | call slot reply _ ih => exact .call slot reply (ih h')

/-- What a body asks for next. -/
inductive Wants : Body → Source → Prop
  | read {query : QueryId} {valueType : ValueType} {key : Key}
    {next : Except QueryError Value → Body} :
    Wants (.perform (.read query valueType key) next) (.input query key)
  | call {mode : CallMode} {label : Label} {key : Key} {next : Except QueryError Value → Body} :
    Wants (.call mode label key next) (.derived label key)

/-- A run asks for what it reads. -/
theorem Follows.wants {b b' : Body} {before after : List Read} {read : Read}
    (h : Follows b (before ++ read :: after) b') :
    ∃ b₁, Follows b before b₁ ∧ Wants b₁ read.source := by
  generalize hreads : before ++ read :: after = reads at h
  induction h generalizing before with
  | refl b => simp at hreads
  | read slot reply h ih =>
    cases before with
    | nil =>
      obtain ⟨rfl, -⟩ := List.cons.inj hreads
      exact ⟨_, .refl _, .read⟩
    | cons first before =>
      obtain ⟨rfl, hrest⟩ := List.cons.inj hreads
      obtain ⟨b₁, hfollows, hwants⟩ := ih hrest
      exact ⟨b₁, .read slot reply hfollows, hwants⟩
  | check h ih =>
    obtain ⟨b₁, hfollows, hwants⟩ := ih hreads
    exact ⟨b₁, .check hfollows, hwants⟩
  | allocate n h ih =>
    obtain ⟨b₁, hfollows, hwants⟩ := ih hreads
    exact ⟨b₁, .allocate n hfollows, hwants⟩
  | yield h ih =>
    obtain ⟨b₁, hfollows, hwants⟩ := ih hreads
    exact ⟨b₁, .yield hfollows, hwants⟩
  | call slot reply h ih =>
    cases before with
    | nil =>
      obtain ⟨rfl, -⟩ := List.cons.inj hreads
      exact ⟨_, .refl _, .call⟩
    | cons first before =>
      obtain ⟨rfl, hrest⟩ := List.cons.inj hreads
      obtain ⟨b₁, hfollows, hwants⟩ := ih hrest
      exact ⟨b₁, .call slot reply hfollows, hwants⟩

/-- The reply of a read is what the present inputs give, as far as a body can tell. -/
def Read.Matches (p : Program) (use : Usages) (same : Indistinct) (inputs : Inputs) (read : Read) :
    Prop :=
  match read.source with
  | .input query key =>
    Agree (Value.AlikeOf (use query).valueType) read.reply (inputs.answer query key)
  | .derived label key =>
    ∃ n r, Yields p inputs n ((p label).body key) r ∧ Agree (same (p label).id) read.reply r

/-- Without a memory, a body goes on to another one. -/
inductive Leads (p : Program) (inputs : Inputs) (yields : Prop) : Body → Body → Prop
  | refl (b : Body) : Leads p inputs yields b b
  | read {query : QueryId} {valueType : ValueType} {key : Key}
    {next : Except QueryError Value → Body} {b : Body}
    (h : Leads p inputs yields (next (inputs.answer query key)) b) :
    Leads p inputs yields (.perform (.read query valueType key) next) b
  | check {next : Except QueryError Unit → Body} {b : Body}
    (h : Leads p inputs yields (next (.ok ())) b) : Leads p inputs yields (.perform .check next) b
  | allocate {next : Nat → Body} {b : Body} (h : Leads p inputs yields (next 0) b) :
    Leads p inputs yields (.perform .allocate next) b
  | yield {next b : Body} (allowed : yields) (h : Leads p inputs yields next b) :
    Leads p inputs yields (.yield next) b
  | call {n : Nat} {mode : CallMode} {label : Label} {key : Key}
    {next : Except QueryError Value → Body} {reply : Except QueryError Value} {b : Body}
    (callee : Yields p inputs n ((p label).body key) reply)
    (h : Leads p inputs yields (next reply) b) :
    Leads p inputs yields (.call mode label key next) b

/-- A body yields what it goes on to yield. -/
theorem Leads.yields_of {inputs : Inputs} {b b' : Body} (h : Leads p inputs yields b b') {n : Nat}
    {r : Except QueryError Value} (hr : Yields p inputs n b' r) : ∃ m, Yields p inputs m b r := by
  induction h with
  | refl b => exact ⟨n, hr⟩
  | read _ ih => exact (ih hr).imp' _ fun _ h => .read h
  | check _ ih => exact (ih hr).imp' _ fun _ h => .check h
  | allocate _ ih => exact (ih hr).imp' _ fun _ h => .allocate h
  | yield _ _ ih => exact (ih hr).imp' _ fun _ h => .yield h
  | call callee _ ih => exact (ih hr).imp' _ fun _ h => .call callee h

/-- If the reads of a run match the present inputs, then the body goes on to what is left of it, as
    far as a body can tell. -/
theorem Follows.replay {inputs : Inputs} {τ : ValueType} {b b' c : Body} {reads : List Read}
    (h : Follows b reads b') (hlawful : Lawful p use same yields τ b c)
    (hmatch : ∀ read ∈ reads, read.Matches p use same inputs) :
    ∃ c', Leads p inputs yields c c' ∧ Lawful p use same yields τ b' c' := by
  induction h generalizing c with
  | refl b => exact ⟨c, .refl c, hlawful⟩
  | read slot reply _ ih =>
    cases hlawful with
    | read typed hnext =>
      have hreply := hmatch _ List.mem_cons_self
      simp only [Read.Matches, typed] at hreply
      obtain ⟨c', hleads, hc'⟩ := ih (hnext _ _ hreply)
        fun read hmem => hmatch read (List.mem_cons_of_mem _ hmem)
      exact ⟨c', .read hleads, hc'⟩
  | check _ ih =>
    cases hlawful with
    | check hnext =>
      obtain ⟨c', hleads, hc'⟩ := ih (hnext _) hmatch
      exact ⟨c', .check hleads, hc'⟩
  | allocate k _ ih =>
    cases hlawful with
    | allocate hnext =>
      obtain ⟨c', hleads, hc'⟩ := ih (hnext k 0) hmatch
      exact ⟨c', .allocate hleads, hc'⟩
  | yield _ ih =>
    cases hlawful with
    | yield allowed hnext =>
      obtain ⟨c', hleads, hc'⟩ := ih hnext hmatch
      exact ⟨c', .yield allowed hleads, hc'⟩
  | call slot reply _ ih =>
    cases hlawful with
    | call typed waits hnext =>
      obtain ⟨m, r, hcallee, hreply⟩ := hmatch _ List.mem_cons_self
      obtain ⟨c', hleads, hc'⟩ := ih (hnext _ _ hreply)
        fun read hmem => hmatch read (List.mem_cons_of_mem _ hmem)
      exact ⟨c', .call hcallee hleads, hc'⟩

/-- The result of a run whose reads match is the one that the body yields. -/
theorem Follows.result {inputs : Inputs} {τ : ValueType} {b c : Body} {reads : List Read}
    {r : Except QueryError Value} (h : Follows b reads (.done r))
    (hlawful : Lawful p use same yields τ b c)
    (hmatch : ∀ read ∈ reads, read.Matches p use same inputs) :
    ∃ n r', Yields p inputs n c r' ∧ Agree (Value.AlikeOf τ) r r' := by
  obtain ⟨c', hleads, hc'⟩ := h.replay hlawful hmatch
  cases hc' with
  | @done _ r' hagree =>
    obtain ⟨k, hk⟩ := hleads.yields_of (.done r')
    exact ⟨k, r', hk, hagree⟩

/-- Two runs of a body whose reads match ask for the same until one of them ends. -/
theorem Follows.meets (hp : p.Pure use same yields) {inputs : Inputs} {τ : ValueType}
    {b b' c : Body} {reads reads' : List Read} {r : Except QueryError Value} {source : Source}
    (h : Follows b reads b') (hwants : Wants b' source) (h' : Follows c reads' (.done r))
    (hlawful : Lawful p use same yields τ b c)
    (hmatch : ∀ read ∈ reads, read.Matches p use same inputs)
    (hmatch' : ∀ read ∈ reads', read.Matches p use same inputs) :
    ∃ read ∈ reads', read.source = source := by
  induction h generalizing c reads' with
  | refl b =>
    cases hwants with
    | read | call =>
      cases hlawful
      cases h'
      exact ⟨_, List.mem_cons_self, rfl⟩
  | @read _ valueType _ _ _ _ slot reply _ ih =>
    cases hlawful with
    | read typed hnext =>
      cases h' with
      | read slot' reply' h' =>
        have hreply := hmatch _ List.mem_cons_self
        have hreply' := hmatch' _ List.mem_cons_self
        simp only [Read.Matches, typed] at hreply hreply'
        have hagree : Agree (Value.AlikeOf valueType) reply reply' :=
          hreply.trans (hreply'.symm fun _ _ => Value.AlikeOf.symm)
            fun _ _ _ halike halike' => ⟨halike.1, halike.2.trans halike'.2⟩
        obtain ⟨read, hmem, hread⟩ := ih hwants h' (hnext _ _ hagree)
          (fun read hmem => hmatch read (List.mem_cons_of_mem _ hmem))
          fun read hmem => hmatch' read (List.mem_cons_of_mem _ hmem)
        exact ⟨read, List.mem_cons_of_mem _ hmem, hread⟩
  | check _ ih =>
    cases hlawful with
    | check hnext =>
      cases h' with
      | check h' => exact ih hwants h' (hnext _) hmatch hmatch'
  | allocate n _ ih =>
    cases hlawful with
    | allocate hnext =>
      cases h' with
      | allocate n' h' => exact ih hwants h' (hnext n n') hmatch hmatch'
  | yield _ ih =>
    cases hlawful with
    | yield allowed hnext =>
      cases h' with
      | yield h' => exact ih hwants h' hnext hmatch hmatch'
  | call slot reply _ ih =>
    cases hlawful with
    | call typed waits hnext =>
      cases h' with
      | call slot' reply' h' =>
        obtain ⟨k, r₁, hcallee, hreply⟩ := hmatch _ List.mem_cons_self
        obtain ⟨k', r₂, hcallee', hreply'⟩ := hmatch' _ List.mem_cons_self
        obtain ⟨-, rfl⟩ := hcallee.unique hcallee'
        have hagree := hreply.trans (hreply'.symm fun _ _ => hp.symm _ _ _)
          fun _ _ _ => hp.trans _ _ _ _
        obtain ⟨read, hmem, hread⟩ := ih hwants h' (hnext _ _ hagree)
          (fun read hmem => hmatch read (List.mem_cons_of_mem _ hmem))
          fun read hmem => hmatch' read (List.mem_cons_of_mem _ hmem)
        exact ⟨read, List.mem_cons_of_mem _ hmem, hread⟩

/-- The calls of a transparent run that ends with a value were answered by values. -/
theorem Follows.replies_ok {b : Body} {reads : List Read} {v : Value}
    (h : Follows b reads (.done (.ok v))) (hb : Transparent b) {read : Read} (hmem : read ∈ reads)
    {label : Label} {key : Key} (hsource : read.source = .derived label key) :
    ∃ u, read.reply = .ok u := by
  generalize hend : (Computation.done (.ok v) : Body) = b' at h
  induction h with
  | refl b => cases hmem
  | read slot reply _ ih =>
    cases hb with
    | perform hb =>
      rcases List.mem_cons.1 hmem with rfl | hmem
      · cases hsource
      · exact ih (hb _) hmem hend
  | check _ ih =>
    cases hb with
    | perform hb => exact ih (hb _) hmem hend
  | allocate n _ ih =>
    cases hb with
    | perform hb => exact ih (hb _) hmem hend
  | yield _ ih =>
    cases hb with
    | yield hb => exact ih hb hmem hend
  | @call mode label key next b reads slot reply h ih =>
    cases hb with
    | call error ok =>
      cases reply with
      | error e =>
        -- the body would have ended with the error
        rw [error] at h
        cases h
        cases hend
      | ok u =>
        rcases List.mem_cons.1 hmem with rfl | hmem
        · exact ⟨u, rfl⟩
        · exact ih (ok u) hmem hend

/-! ## What is known of a read -/

namespace World

/-- The slot that was read is the slot of what was asked for. -/
structure Placed (p : Program) (use : Usages) (w : World) (read : Read) : Prop where
  node : w.node? read.slot = some (read.source.node p)
  typed : read.source.Typed p use

/-- A derived slot was asked for its derived value. -/
theorem Placed.derived (hp : p.Pure use same yields) {w : World} {read : Read}
    (h : Placed p use w read) {label : Label} {key : Key}
    (hi : w.node? read.slot = some (p.node label key)) :
    ∃ label' key', read.source = .derived label' key' ∧ p.node label' key' = p.node label key := by
  have hnode := Option.some.inj (h.node.symm.trans hi)
  have htyped := h.typed
  cases hsource : read.source with
  | input query key' =>
    rw [hsource] at hnode htyped
    have hquery : query = (p label).id := congrArg Node.query hnode
    rw [Source.Typed, hquery, hp.derived] at htyped
    cases htyped
  | derived label' key' =>
    rw [hsource] at hnode
    exact ⟨label', key', rfl, hnode⟩

/-- What is known of a read of a reader that is valid up to `r`. -/
structure Seen (p : Program) (use : Usages) (same : Indistinct) (w : World) (r : Revision)
    (read : Read) : Prop extends Placed p use w read where
  /-- At the present revision the read matches. -/
  current : r = w.revision → read.Matches p use same w.inputs
  /-- An input that was not written after `r` is as it was. -/
  unwritten : ∀ query key, read.source = .input query key → w.changedAt read.slot ≤ r →
    Agree (Value.AlikeOf (use query).valueType) read.reply (w.inputs.answer query key)
  /-- What was read is valid as long as the reader. -/
  verified : ∀ m, w.memo? read.slot = some m → r ≤ m.verifiedAt
  /-- A derived value that has not changed after `r` is as it was. -/
  unchanged : ∀ label key m v, read.source = .derived label key → w.memo? read.slot = some m →
    m.changedAt ≤ r → read.reply = .ok v → same (p label).id v m.value

namespace Seen

variable {w w' : World} {r : Revision} {read : Read}

/-- An input that has just been read. -/
theorem of_input {w w' : World} {query : QueryId} {valueType : ValueType} {key : Key} {i : SlotId}
    (hfinds : w.Finds p use ⟨query, key⟩ i w') (typed : use query = ⟨.input, key.type, valueType⟩)
    {reply : Except QueryError Value}
    (hagree : Agree (Value.AlikeOf valueType) reply (w'.inputs.answer query key)) (r : Revision) :
    w'.Seen p use same r ⟨i, .input query key, reply⟩ where
  node := hfinds.found
  typed := congrArg Usage.kind typed
  current _ := by
    simp only [Read.Matches, typed]
    exact hagree
  unwritten query' key' hsource _ := by
    cases hsource
    rw [typed]
    exact hagree
  verified m hm := by
    rw [hfinds.tidy.memo?_input hfinds.found (congrArg Usage.kind typed)] at hm
    cases hm
  unchanged _ _ _ _ hsource := nomatch hsource

theorem grows (h : Seen p use same w r read) (ht : Tidy p use w.toSystem)
    (ht' : Tidy p use w'.toSystem) (hw : Grows w w') : Seen p use same w' r read where
  node := hw.node _ _ h.node
  typed := h.typed
  current hr := by
    rw [hw.inputs ht ht']
    exact h.current (hr.trans hw.revision)
  unwritten query key hsource hle := by
    have hnode := h.node
    have hkind := h.typed
    rw [hsource] at hnode hkind
    rw [hw.inputs ht ht']
    refine h.unwritten query key hsource ?_
    rw [ht'.changedAt_input (hw.node _ _ hnode) hkind, hw.written] at hle
    rwa [ht.changedAt_input hnode hkind]
  verified m hm := h.verified m ((hw.memo _).symm.trans hm)
  unchanged label key m v hsource hm := h.unchanged label key m v hsource ((hw.memo _).symm.trans hm)

/-- A renewal of what was read does not change what is known of the read, provided that the new memo
    is valid after `r`, or that its value is as the one that was seen. -/
theorem renews (hp : p.Pure use same yields) (h : Seen p use same w r read)
    (ht : Tidy p use w.toSystem) (ht' : Tidy p use w'.toSystem) {i : SlotId} {m : Memo}
    {label : Label} {key : Key} (hi : w.node? i = some (p.node label key)) (hw : Renews w i m w')
    (hnew : m.Supersedes (same (p label).id) (w.memo? i)) (hle : read.slot = i → r ≤ m.verifiedAt)
    (hvalue : read.slot = i → r < m.verifiedAt ∨
      ∀ v, read.reply = .ok v → same (p label).id v m.value) : Seen p use same w' r read where
  node := hw.node _ _ h.node
  typed := h.typed
  current hr := by
    rw [hw.inputs ht ht']
    exact h.current (hr.trans hw.revision)
  unwritten query key hsource hle := by
    have hnode := h.node
    have hkind := h.typed
    rw [hsource] at hnode hkind
    rw [hw.inputs ht ht']
    refine h.unwritten query key hsource ?_
    rw [ht'.changedAt_input (hw.node _ _ hnode) hkind, hw.written] at hle
    rwa [ht.changedAt_input hnode hkind]
  verified m' hm' := by
    by_cases hslot : read.slot = i
    · rw [hslot, hw.memo_self] at hm'
      exact Option.some.inj hm' ▸ hle hslot
    · exact h.verified m' ((hw.memo_other _ hslot).symm.trans hm')
  unchanged label' key' m' v hsource hm' hchanged hreply := by
    by_cases hslot : read.slot = i
    · rw [hslot, hw.memo_self] at hm'
      obtain rfl := Option.some.inj hm'
      have hnode := h.node
      rw [hsource, hslot, hi] at hnode
      have hid : (p label').id = (p label).id :=
        congrArg Node.query (Option.some.inj hnode).symm
      rw [hid]
      rcases hvalue hslot with hlt | hvalue
      · -- the stamp of the last change was kept, since it is not that of the new memo
        rcases hnew with hstamp | ⟨o, ho, hstamp, hsame⟩
        · exact absurd (hstamp ▸ hchanged) (Nat.not_le.2 hlt)
        · have hold := h.unchanged label' key' o v hsource (hslot ▸ ho) (hstamp ▸ hchanged) hreply
          rw [hid] at hold
          exact hp.trans _ _ _ _ hold hsame
      · exact hvalue v hreply
    · exact h.unchanged label' key' m' v hsource ((hw.memo_other _ hslot).symm.trans hm') hchanged
        hreply

theorem clears (h : Seen p use same w r read) (ht : Tidy p use w.toSystem)
    (ht' : Tidy p use w'.toSystem) {before : Revision} (hw : Clears w before w') :
    Seen p use same w' r read where
  node := hw.node _ _ h.node
  typed := h.typed
  current hr := by
    rw [hw.inputs ht ht']
    exact h.current (hr.trans hw.revision)
  unwritten query key hsource hle := by
    have hnode := h.node
    have hkind := h.typed
    rw [hsource] at hnode hkind
    rw [hw.inputs ht ht']
    refine h.unwritten query key hsource ?_
    rw [ht'.changedAt_input (hw.node _ _ hnode) hkind, hw.written] at hle
    rwa [ht.changedAt_input hnode hkind]
  verified m hm := by
    rcases hw.memo read.slot with hkept | ⟨hgone, -⟩
    · exact h.verified m (hkept.symm.trans hm)
    · rw [hgone] at hm
      cases hm
  unchanged label key m v hsource hm := by
    rcases hw.memo read.slot with hkept | ⟨hgone, -⟩
    · exact h.unchanged label key m v hsource (hkept.symm.trans hm)
    · rw [hgone] at hm
      cases hm

/-- An input that was not written since it was read is known to be as it was at any time. -/
theorem of_unwritten (hp : p.Pure use same yields) (h : Seen p use same w r read)
    (ht : Tidy p use w.toSystem) {n : Node} (hi : w.node? read.slot = some n)
    (hkind : (use n.query).kind = .input) (hle : w.changedAt read.slot ≤ r) (r' : Revision) :
    Seen p use same w r' read := by
  have hnode := h.node
  have htyped := h.typed
  have hunwritten := h.unwritten
  obtain ⟨slot, source, reply⟩ := read
  cases source with
  | input query key =>
    have hagree := hunwritten query key rfl hle
    refine ⟨⟨hnode, htyped⟩, fun _ => hagree, ?_, ?_, ?_⟩
    · rintro query' key' hsource -
      cases hsource
      exact hagree
    · intro m hm
      rw [ht.memo?_input hi hkind] at hm
      cases hm
    · intro label key m v hsource
      cases hsource
  | derived label key =>
    rw [← Option.some.inj (hnode.symm.trans hi)] at hkind
    cases (hp.derived label).symm.trans hkind

/-- A write leaves what is known of reads up to the revision before it. -/
theorem writes (h : Seen p use same w r read) (ht : Tidy p use w.toSystem)
    (ht' : Tidy p use w'.toSystem) {i : SlotId} {v : Value} (hw : Writes w i v w')
    (hr : r ≤ w.revision) : Seen p use same w' r read where
  node := (hw.node _).trans h.node
  typed := h.typed
  current hr' := by
    have hrevision := hr'.trans hw.revision
    exact absurd (Nat.le_trans (Nat.le_of_eq hrevision.symm) hr) (Nat.not_succ_le_self w.revision)
  unwritten query key hsource hle := by
    have hnode := h.node
    have hkind := h.typed
    rw [hsource] at hnode hkind
    rw [ht'.changedAt_input ((hw.node _).trans hnode) hkind] at hle
    by_cases hslot : read.slot = i
    · rw [hslot, hw.written_self, Option.map_some, Option.getD_some] at hle
      exact absurd (Nat.le_trans hle hr) (Nat.not_succ_le_self w.revision)
    · rw [hw.written_other _ hslot, ← ht.changedAt_input hnode hkind] at hle
      have hsame : w'.inputs query key = w.inputs query key := by
        have hleft := ht.inputs_eq hnode
        have hright := ht'.inputs_eq ((hw.node _).trans hnode)
        rw [hw.written_other _ hslot] at hright
        exact hright.trans hleft.symm
      rw [Inputs.answer, hsame]
      exact h.unwritten query key hsource hle
  verified m hm := h.verified m ((hw.memo _).symm.trans hm)
  unchanged label key m v hsource hm := h.unchanged label key m v hsource ((hw.memo _).symm.trans hm)

end Seen

end World

end RedGreen
