import RedGreen.Program
import RedGreen.Proofs.Alike
import Mathlib.Logic.Relation

set_option autoImplicit false

/-! # Pure programs

A program is *pure* if every identity has one use, and if the bodies depend on nothing but their key
and the answers to what they read. The second part is a relation between two bodies, `Lawful`: they
ask the same questions, in accordance with the uses, go on lawfully whatever they are answered, as
long as the answers are related, and end with values of their type. Two answers to an input read are
related if they are values of the type of the input that are alike, and two answers to a call if the
callee's values are *indistinct*: a relation that each query comes with and that holds of values
which no body can tell apart. A pure body is lawful beside itself. It can ask neither for the
revision nor for its slot, since these are not in the relation, and it cannot cancel its request.

The equality for early cutoff of a query is *faithful* if it holds, among the values of its type, of
indistinct ones only. -/

namespace RedGreen

/-- What an identity is used for, and with which types. -/
structure Usage where
  kind : SlotKind
  keyType : KeyType
  valueType : ValueType
deriving DecidableEq, Repr

/-- The use of each identity. -/
abbrev Usages := QueryId → Usage

/-- For each query, which of its values callers cannot tell apart. -/
abbrev Indistinct := QueryId → Value → Value → Prop

/-- Two bodies that ask the same questions, go on alike, and end with values of a type. The flag
    tells whether they may yield; if so, they wait for all their calls. -/
inductive Lawful (p : Program) (use : Usages) (same : Indistinct) (yields : Prop)
    (τ : ValueType) : Body → Body → Prop
  | done {r r' : Except QueryError Value} (h : Agree (Value.AlikeOf τ) r r') :
    Lawful p use same yields τ (.done r) (.done r')
  | read {query : QueryId} {valueType : ValueType} {key : Key}
    {next next' : Except QueryError Value → Body}
    (typed : use query = ⟨.input, key.type, valueType⟩)
    (h : ∀ r r', Agree (Value.AlikeOf valueType) r r' →
      Lawful p use same yields τ (next r) (next' r')) :
    Lawful p use same yields τ (.perform (.read query valueType key) next)
      (.perform (.read query valueType key) next')
  | check {next next' : Except QueryError Unit → Body}
    (h : ∀ r, Lawful p use same yields τ (next r) (next' r)) :
    Lawful p use same yields τ (.perform .check next) (.perform .check next')
  | allocate {next next' : Nat → Body}
    (h : ∀ m n, Lawful p use same yields τ (next m) (next' n)) :
    Lawful p use same yields τ (.perform .allocate next) (.perform .allocate next')
  | call {mode : CallMode} {label : Label} {key : Key}
    {next next' : Except QueryError Value → Body}
    (typed : key.type = (use (p label).id).keyType)
    (waits : yields → mode = .awaited)
    (h : ∀ r r', Agree (same (p label).id) r r' → Lawful p use same yields τ (next r) (next' r')) :
    Lawful p use same yields τ (.call mode label key next) (.call mode label key next')
  | yield {next next' : Body} (allowed : yields) (h : Lawful p use same yields τ next next') :
    Lawful p use same yields τ (.yield next) (.yield next')

/-- A program whose identities have one use each: labels that share an identity share the body and the
    equality. -/
structure Program.Consistent (p : Program) (use : Usages) : Prop where
  derived : ∀ label, (use (p label).id).kind = .derived
  valueType : ∀ label, (use (p label).id).valueType = (p label).valueType
  shared : ∀ label label', (p label).id = (p label').id →
    (p label).body = (p label').body ∧ (p label).equality = (p label').equality

/-- A pure program: identities have one use each, and bodies depend only on what they read. -/
structure Program.Pure (p : Program) (use : Usages) (same : Indistinct) (yields : Prop) : Prop where
  symm : ∀ query v w, same query v w → same query w v
  trans : ∀ query u v w, same query u v → same query v w → same query u w
  /-- Nobody can tell lists apart by their identity. -/
  alike : ∀ query v w, Value.AlikeOf (use query).valueType v w → same query v w
  /-- What counts as unchanged cannot be told apart. -/
  faithful : ∀ label v w, v.type = (p label).valueType → w.type = (p label).valueType →
    (p label).equality v w = true → same (p label).id v w
  derived : ∀ label, (use (p label).id).kind = .derived
  valueType : ∀ label, (use (p label).id).valueType = (p label).valueType
  /-- Labels that share an identity share the body and the equality. -/
  shared : ∀ label label', (p label).id = (p label').id →
    (p label).body = (p label').body ∧ (p label).equality = (p label').equality
  lawful : ∀ label key, key.type = (use (p label).id).keyType →
    Lawful p use same yields (p label).valueType ((p label).body key) ((p label).body key)

theorem Program.Pure.consistent {p : Program} {use : Usages} {same : Indistinct} {yields : Prop}
    (hp : p.Pure use same yields) : p.Consistent use := ⟨hp.derived, hp.valueType, hp.shared⟩

/-- A body that hands on the error of a call unchanged, at once. It may recover from the error of an
    input read. -/
inductive Transparent : Body → Prop
  | done (r : Except QueryError Value) : Transparent (.done r)
  | perform {op : Operation} {next : op.Reply → Body} (h : ∀ r, Transparent (next r)) :
    Transparent (.perform op next)
  | call {mode : CallMode} {label : Label} {key : Key} {next : Except QueryError Value → Body}
    (error : ∀ e, next (.error e) = .done (.error e)) (ok : ∀ v, Transparent (next (.ok v))) :
    Transparent (.call mode label key next)
  | yield {next : Body} (h : Transparent next) : Transparent (.yield next)

/-- The identity and the key of a derived value or of an input. -/
structure Node where
  query : QueryId
  key : Key
deriving DecidableEq, Repr

/-- The name of a node in messages. -/
def Node.text (n : Node) : String := n.query.name ++ "(" ++ n.key.text ++ ")"

/-- The node that a call asks for. -/
def Program.node (p : Program) (label : Label) (key : Key) : Node := ⟨(p label).id, key⟩

/-- A body may call a query with a key: some answers lead it there. -/
inductive Calls : Body → Label → Key → Prop
  | here {mode : CallMode} {label : Label} {key : Key} {next : Except QueryError Value → Body} :
    Calls (.call mode label key next) label key
  | call {mode : CallMode} {label label' : Label} {key key' : Key}
    {next : Except QueryError Value → Body} (r : Except QueryError Value)
    (h : Calls (next r) label' key') : Calls (.call mode label key next) label' key'
  | perform {op : Operation} {next : op.Reply → Body} {label : Label} {key : Key} (r : op.Reply)
    (h : Calls (next r) label key) : Calls (.perform op next) label key
  | yield {next : Body} {label : Label} {key : Key} (h : Calls next label key) :
    Calls (.yield next) label key

/-- One node directly depends on another: some body of the one may call the other. -/
def Program.Depends (p : Program) (m n : Node) : Prop :=
  ∃ label key label' key', m = p.node label key ∧ Calls ((p label).body key) label' key' ∧
    n = p.node label' key'

/-- No node depends on itself, directly or through others. -/
def Program.Acyclic (p : Program) : Prop := ∀ n, ¬Relation.TransGen p.Depends n n

/-! ## Programs of two integers -/

/-- A program of two queries, the one for a label and the other for all other labels. -/
def either (name : Label) (first second : Query) : Program :=
  fun label => if label = name then first else second

theorem either_cases (name : Label) {first second : Query} (holds : Query → Prop)
    (hfirst : holds first) (hsecond : holds second) (label : Label) :
    holds (either name first second label) := by
  unfold either
  split
  · exact hfirst
  · exact hsecond

/-- One input and derived values, all of them integers without an argument. -/
def integerUses : Usages := fun query =>
  ⟨if query = ⟨"x"⟩ then .input else .derived, .unit, .int⟩

/-- Nobody can tell an integer from itself. -/
def sameInteger : Indistinct := fun _ v w => v.type = .int ∧ v = w

theorem sameInteger_of_alikeOf {v w : Value} (h : v.AlikeOf .int w) : v.type = .int ∧ v = w := by
  obtain ⟨hv, halike⟩ := h
  cases v <;> cases hv
  cases w <;> cases halike
  exact ⟨rfl, rfl⟩

/-- An integer that is compared by its content and is not the input. -/
def Query.Integer (query : Query) : Prop :=
  query.valueType = .int ∧ query.equality = Equality.content.same ∧ query.id ≠ ⟨"x"⟩

/-- Integers that are compared by their content make a pure program if their bodies are lawful. -/
theorem pure_of_integers {p : Program} {use : Usages} {yields : Prop}
    (hinteger : ∀ label, (p label).valueType = .int ∧ (p label).equality = Equality.content.same)
    (hderived : ∀ label, (use (p label).id).kind = .derived)
    (htype : ∀ query, (use query).valueType = .int)
    (hshared : ∀ label label', (p label).id = (p label').id → (p label).body = (p label').body)
    (hlawful : ∀ label key, Lawful p use sameInteger yields .int ((p label).body key)
      ((p label).body key)) : p.Pure use sameInteger yields where
  symm _ _ _ h := ⟨h.2 ▸ h.1, h.2.symm⟩
  trans _ _ _ _ h h' := ⟨h.1, h.2.trans h'.2⟩
  alike query _ _ h := sameInteger_of_alikeOf (htype query ▸ h)
  faithful label v w hv hw h := by
    rw [(hinteger label).1] at hv hw
    rw [(hinteger label).2] at h
    cases v <;> cases hv
    cases w <;> cases hw
    exact ⟨rfl, by simpa [Equality.same, Value.equal] using h⟩
  derived := hderived
  valueType label := (htype _).trans (hinteger label).1.symm
  shared label label' hid :=
    ⟨hshared label label' hid, (hinteger label).2.trans (hinteger label').2.symm⟩
  lawful label key _ := (hinteger label).1 ▸ hlawful label key

/-- Two integers of different identities, with lawful bodies, make a pure program. -/
theorem either_pure (name : Label) {first second : Query} {yields : Prop} (hfirst : first.Integer)
    (hsecond : second.Integer) (hne : first.id ≠ second.id)
    (hlawful : ∀ key, Lawful (either name first second) integerUses sameInteger yields .int
      (first.body key) (first.body key))
    (hlawful' : ∀ key, Lawful (either name first second) integerUses sameInteger yields .int
      (second.body key) (second.body key)) :
    (either name first second).Pure integerUses sameInteger yields := by
  have hinteger := either_cases name Query.Integer hfirst hsecond
  refine pure_of_integers (fun label => ⟨(hinteger label).1, (hinteger label).2.1⟩)
    (fun label => by simp only [integerUses, if_neg (hinteger label).2.2]) (fun _ => rfl) ?_ ?_
  · intro label label' hid
    unfold either at hid ⊢
    split at hid <;> split at hid <;> simp_all
  · intro label key
    exact either_cases name (fun query => Lawful (either name first second) integerUses sameInteger
      yields .int (query.body key) (query.body key)) (hlawful key) (hlawful' key) label

/-- Ends with an integer computed from the one that was read, or with the error of reading it. -/
def thenInteger (f : Int → Int) : Except QueryError Value → Body
  | .ok (.int n) => .done (.ok (.int (f n)))
  | .ok _ => .done (.ok (.int 0))
  | .error e => .done (.error e)

theorem lawful_thenInteger {p : Program} {use : Usages} {same : Indistinct} {yields : Prop}
    (f : Int → Int) {r r' : Except QueryError Value}
    (h : Agree (fun v w : Value => v.type = .int ∧ v = w) r r') :
    Lawful p use same yields .int (thenInteger f r) (thenInteger f r') := by
  cases h with
  | ok h =>
    obtain ⟨hv, rfl⟩ := h
    rename_i v
    cases v <;> cases hv
    exact .done (.ok (Value.alikeOf_refl rfl))
  | error e => exact .done (.error e)

theorem transparent_thenInteger (f : Int → Int) (r : Except QueryError Value) :
    Transparent (thenInteger f r) := by
  unfold thenInteger
  split <;> exact .done _

end RedGreen
