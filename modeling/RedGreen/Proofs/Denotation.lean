import RedGreen.World
import RedGreen.Proofs.Purity

set_option autoImplicit false

/-! # What a body evaluates to

The meaning of a body on given inputs, without a machine and without a memory. There are two
versions. `Evaluates` knows the nodes in progress, outermost first, and answers a call of one of
them by the error of a cycle. `Yields` does not: it has no result for a cyclic call, but it is the
same wherever it is asked for, and it counts the steps. Since a body has one result, a node whose
evaluation comes to its own evaluation again would need more steps than it needs; so what is yielded
is never the result of a cyclic evaluation (`Yields.evaluates`). -/

namespace RedGreen

/-- What the inputs hold, without the identity of lists. -/
abbrev Inputs := QueryId → Key → Option Value

/-- The answer to the read of an input. -/
def Inputs.answer (inputs : Inputs) (query : QueryId) (key : Key) : Except QueryError Value :=
  match inputs query key with
  | some v => .ok v
  | none => .error (World.unset query key)

/-- The error of asking for a node in progress. -/
def cycleError (stack : List Node) (n : Node) : QueryError := .cycle ((stack ++ [n]).map Node.text)

/-- A body evaluates to a result while the nodes of a stack are in progress. -/
inductive Evaluates (p : Program) (inputs : Inputs) :
    List Node → Body → Except QueryError Value → Prop
  | done (stack : List Node) (r : Except QueryError Value) : Evaluates p inputs stack (.done r) r
  | read {stack : List Node} {query : QueryId} {valueType : ValueType} {key : Key}
    {next : Except QueryError Value → Body} {r : Except QueryError Value}
    (h : Evaluates p inputs stack (next (inputs.answer query key)) r) :
    Evaluates p inputs stack (.perform (.read query valueType key) next) r
  | check {stack : List Node} {next : Except QueryError Unit → Body} {r : Except QueryError Value}
    (h : Evaluates p inputs stack (next (.ok ())) r) :
    Evaluates p inputs stack (.perform .check next) r
  | allocate {stack : List Node} {next : Nat → Body} {r : Except QueryError Value}
    (h : Evaluates p inputs stack (next 0) r) : Evaluates p inputs stack (.perform .allocate next) r
  | yield {stack : List Node} {next : Body} {r : Except QueryError Value}
    (h : Evaluates p inputs stack next r) : Evaluates p inputs stack (.yield next) r
  | cycle {stack : List Node} {mode : CallMode} {label : Label} {key : Key}
    {next : Except QueryError Value → Body} {r : Except QueryError Value}
    (active : p.node label key ∈ stack)
    (h : Evaluates p inputs stack (next (.error (cycleError stack (p.node label key)))) r) :
    Evaluates p inputs stack (.call mode label key next) r
  | call {stack : List Node} {mode : CallMode} {label : Label} {key : Key}
    {next : Except QueryError Value → Body} {r reply : Except QueryError Value}
    (inactive : p.node label key ∉ stack)
    (callee : Evaluates p inputs (stack ++ [p.node label key]) ((p label).body key) reply)
    (h : Evaluates p inputs stack (next reply) r) :
    Evaluates p inputs stack (.call mode label key next) r

/-- A body yields a result in a number of steps, the steps of its calls included. -/
inductive Yields (p : Program) (inputs : Inputs) : Nat → Body → Except QueryError Value → Prop
  | done (r : Except QueryError Value) : Yields p inputs 0 (.done r) r
  | read {n : Nat} {query : QueryId} {valueType : ValueType} {key : Key}
    {next : Except QueryError Value → Body} {r : Except QueryError Value}
    (h : Yields p inputs n (next (inputs.answer query key)) r) :
    Yields p inputs (n + 1) (.perform (.read query valueType key) next) r
  | check {n : Nat} {next : Except QueryError Unit → Body} {r : Except QueryError Value}
    (h : Yields p inputs n (next (.ok ())) r) : Yields p inputs (n + 1) (.perform .check next) r
  | allocate {n : Nat} {next : Nat → Body} {r : Except QueryError Value}
    (h : Yields p inputs n (next 0) r) : Yields p inputs (n + 1) (.perform .allocate next) r
  | yield {n : Nat} {next : Body} {r : Except QueryError Value} (h : Yields p inputs n next r) :
    Yields p inputs (n + 1) (.yield next) r
  | call {m n : Nat} {mode : CallMode} {label : Label} {key : Key}
    {next : Except QueryError Value → Body} {r reply : Except QueryError Value}
    (callee : Yields p inputs m ((p label).body key) reply)
    (h : Yields p inputs n (next reply) r) :
    Yields p inputs (m + n + 1) (.call mode label key next) r

variable {p : Program} {use : Usages} {same : Indistinct} {yields : Prop} {inputs : Inputs}

/-! ## One result each -/

theorem Evaluates.unique {stack : List Node} {b : Body} {r r' : Except QueryError Value}
    (h : Evaluates p inputs stack b r) (h' : Evaluates p inputs stack b r') : r = r' := by
  induction h generalizing r' with
  | done stack r => cases h'; rfl
  | read _ ih | check _ ih | allocate _ ih | yield _ ih =>
    cases h' with
    | _ h' => exact ih h'
  | cycle active _ ih =>
    cases h' with
    | cycle _ h' => exact ih h'
    | call inactive => exact absurd active inactive
  | call inactive _ _ ihCallee ih =>
    cases h' with
    | cycle active => exact absurd active inactive
    | call _ callee h' =>
      obtain rfl := ihCallee callee
      exact ih h'

theorem Yields.unique {m n : Nat} {b : Body} {r r' : Except QueryError Value}
    (h : Yields p inputs m b r) (h' : Yields p inputs n b r') : m = n ∧ r = r' := by
  induction h generalizing n r' with
  | done r => cases h'; exact ⟨rfl, rfl⟩
  | read _ ih | check _ ih | allocate _ ih | yield _ ih =>
    cases h' with
    | _ h' =>
      obtain ⟨rfl, rfl⟩ := ih h'
      exact ⟨rfl, rfl⟩
  | call _ _ ihCallee ih =>
    cases h' with
    | call callee h' =>
      obtain ⟨rfl, rfl⟩ := ihCallee callee
      obtain ⟨rfl, rfl⟩ := ih h'
      exact ⟨rfl, rfl⟩

/-! ## From the one to the other -/

/-- Labels of one node have one body. -/
theorem Program.Pure.body_eq (hp : p.Pure use same yields) {label label' : Label} {key key' : Key}
    (h : p.node label key = p.node label' key') : (p label).body key = (p label').body key' := by
  obtain ⟨hid, rfl⟩ := Node.mk.injEq .. ▸ h
  rw [(hp.shared label label' hid).1]

/-- What a body yields it evaluates to, provided no node in progress yields anything in fewer
    steps. -/
theorem Yields.evaluates (hp : p.Pure use same yields) {n : Nat} {b : Body}
    {r : Except QueryError Value} (h : Yields p inputs n b r) {stack : List Node}
    (hstack : ∀ label key m r', p.node label key ∈ stack →
      Yields p inputs m ((p label).body key) r' → n ≤ m) :
    Evaluates p inputs stack b r := by
  induction h generalizing stack with
  | done r => exact .done stack r
  | read _ ih =>
    exact .read (ih fun l k m r' hmem hm => Nat.le_of_succ_le (hstack l k m r' hmem hm))
  | check _ ih =>
    exact .check (ih fun l k m r' hmem hm => Nat.le_of_succ_le (hstack l k m r' hmem hm))
  | allocate _ ih =>
    exact .allocate (ih fun l k m r' hmem hm => Nat.le_of_succ_le (hstack l k m r' hmem hm))
  | yield _ ih =>
    exact .yield (ih fun l k m r' hmem hm => Nat.le_of_succ_le (hstack l k m r' hmem hm))
  | @call m n mode label key next r reply callee h ihCallee ih =>
    have hnot : p.node label key ∉ stack := by
      intro hmem
      have := hstack label key m reply hmem callee
      omega
    refine .call hnot (ihCallee ?_) (ih ?_)
    · intro l k m' r' hmem hm
      rcases List.mem_append.1 hmem with hmem | hmem
      · have := hstack l k m' r' hmem hm
        omega
      · -- the callee itself: it has one result and takes one number of steps
        rw [hp.body_eq (List.mem_singleton.1 hmem)] at hm
        exact Nat.le_of_eq (callee.unique hm).1
    · intro l k m' r' hmem hm
      have := hstack l k m' r' hmem hm
      omega

/-- What a node yields it evaluates to. -/
theorem Yields.evaluates_alone (hp : p.Pure use same yields) {n : Nat} {label : Label} {key : Key}
    {r : Except QueryError Value} (h : Yields p inputs n ((p label).body key) r) :
    Evaluates p inputs [p.node label key] ((p label).body key) r := by
  refine h.evaluates hp fun label' key' m r' hmem hm => ?_
  rw [hp.body_eq (List.mem_singleton.1 hmem)] at hm
  exact Nat.le_of_eq (h.unique hm).1

end RedGreen
