import RedGreen.Proofs.Codes
import RedGreen.Proofs.Purity

set_option autoImplicit false

/-! # Programs up to their equalities

A program *respects* its equalities if its bodies cannot tell more than these do: answered with alike
inputs and with values of its callees that are related, a body asks the same questions and ends with
values that are related by its own equality, or with the same error (`Program.Respectful`).

The *quotient* of a program computes classes in the place of values: a body decodes what it is answered,
goes on as before, and encodes its value. Related values are alike there, so the quotient of a program
that respects its equalities is pure (`Respectful.pure_quotient`), whatever these equalities are. -/

namespace RedGreen

/-- Values of a query that are equal up to allocations, or related by the equality of the query. -/
def Query.Same (q : Query) (v w : Value) : Prop :=
  v.type = q.valueType ∧ w.type = q.valueType ∧ q.equality.Relates v w

/-- Two bodies that ask the same questions as long as the answers are related, and end with values that
    are related by `own` then. -/
inductive Respects (p : Program) (use : Usages) (own : Value → Value → Prop) : Body → Body → Prop
  | done {r r' : Except QueryError Value} (h : Agree own r r') : Respects p use own (.done r) (.done r')
  | read {query : QueryId} {valueType : ValueType} {key : Key}
    {next next' : Except QueryError Value → Body}
    (typed : use query = ⟨.input, key.type, valueType⟩)
    (h : ∀ r r', Agree (Value.AlikeOf valueType) r r' → Respects p use own (next r) (next' r')) :
    Respects p use own (.perform (.read query valueType key) next)
      (.perform (.read query valueType key) next')
  | check {next next' : Except QueryError Unit → Body}
    (h : ∀ r, Respects p use own (next r) (next' r)) :
    Respects p use own (.perform .check next) (.perform .check next')
  | allocate {next next' : Nat → Body} (h : ∀ m n, Respects p use own (next m) (next' n)) :
    Respects p use own (.perform .allocate next) (.perform .allocate next')
  | call {mode : CallMode} {label : Label} {key : Key} {next next' : Except QueryError Value → Body}
    (typed : key.type = (use (p label).id).keyType)
    (h : ∀ r r', Agree (p label).Same r r' → Respects p use own (next r) (next' r')) :
    Respects p use own (.call mode label key next) (.call mode label key next')

/-- A program whose equalities are regular and respected by its bodies. -/
structure Program.Respectful (p : Program) (use : Usages) : Prop extends p.Consistent use where
  regular : ∀ label, (p label).equality.Regular (p label).valueType
  respects : ∀ label key, key.type = (use (p label).id).keyType →
    Respects p use (p label).Same ((p label).body key) ((p label).body key)

/-! ## The quotient -/

namespace Query

/-- The values of a query in classes. -/
abbrev classes (q : Query) : Classes q.valueType := q.equality.classes q.valueType

/-- The code of a value of a query. -/
noncomputable def encode (q : Query) (v : Value) : Value := q.classes.encode v

/-- The value of a query that a code stands for. -/
noncomputable def decode (q : Query) (a : Value) : Value := q.classes.decode a

variable (q : Query)

theorem type_encode (v : Value) : (q.encode v).type = .list := q.classes.type_encode v

theorem type_decode (a : Value) : (q.decode a).type = q.valueType := (q.classes.decode a).2

theorem decode_encode {v : Value} (hv : v.type = q.valueType) : q.decode (q.encode v) = v :=
  congrArg Subtype.val (Classes.decode_encode (⟨v, hv⟩ : q.valueType.Values))

theorem encode_injective {v w : Value} (hv : v.type = q.valueType) (hw : w.type = q.valueType)
    (h : q.encode v = q.encode w) : v = w := by
  rw [← q.decode_encode hv, h, q.decode_encode hw]

variable {q}

/-- Codes are alike if the values are related. -/
theorem alike_encode (hq : q.equality.Regular q.valueType) {v w : Value}
    (hv : v.type = q.valueType) (hw : w.type = q.valueType) :
    (q.encode v).Alike (q.encode w) ↔ q.equality.Relates v w :=
  (Classes.alike_encode (v := ⟨v, hv⟩) (w := ⟨w, hw⟩)).trans hq.classes_iff

/-- Alike lists stand for related values. -/
theorem same_decode (hq : q.equality.Regular q.valueType) {a b : Value} (h : a.Alike b) :
    q.Same (q.decode a) (q.decode b) :=
  ⟨q.type_decode a, q.type_decode b, hq.classes_iff.1 (Classes.class_decode h)⟩

open Classical in
/-- When two codes count as unchanged: if the values do, and can exist side by side. -/
noncomputable def codedEquality (q : Query) : Equivalence := fun a b =>
  decide (∃ v w, q.encode v = a ∧ q.encode w = b ∧ v.type = q.valueType ∧ w.type = q.valueType ∧
    v.Coherent w ∧ q.equality v w = true)

open Classical in
theorem codedEquality_eq_true {a b : Value} : q.codedEquality a b = true ↔
    ∃ v w, q.encode v = a ∧ q.encode w = b ∧ v.type = q.valueType ∧ w.type = q.valueType ∧
      v.Coherent w ∧ q.equality v w = true := by
  rw [codedEquality, decide_eq_true_iff]

theorem codedEquality_encode {v w : Value} (hv : v.type = q.valueType) (hw : w.type = q.valueType)
    (hcoherent : v.Coherent w) : q.codedEquality (q.encode v) (q.encode w) = q.equality v w := by
  rw [Bool.eq_iff_iff, codedEquality_eq_true]
  constructor
  · rintro ⟨v', w', hencode, hencode', hv', hw', -, h⟩
    rwa [q.encode_injective hv' hv hencode, q.encode_injective hw' hw hencode'] at h
  · exact fun h => ⟨v, w, rfl, rfl, hv, hw, hcoherent, h⟩

/-- Codes that count as unchanged are alike. -/
theorem alike_of_codedEquality (hq : q.equality.Regular q.valueType) {a b : Value}
    (h : q.codedEquality a b = true) : a.Alike b := by
  obtain ⟨v, w, rfl, rfl, hv, hw, hcoherent, hequal⟩ := codedEquality_eq_true.1 h
  exact (alike_encode hq hv hw).2 (Equivalence.relates_of_equal hcoherent hequal)

end Query

namespace Program

/-- A body that decodes what it is answered, and encodes what it computes for a query. -/
noncomputable def encodeBody (p : Program) (q : Query) : Body → Body
  | .done r => .done (r.map q.encode)
  | .perform op next => .perform op fun r => p.encodeBody q (next r)
  | .call mode label key next =>
    .call mode label key fun r => p.encodeBody q (next (r.map (p label).decode))
  | .yield next => .yield (p.encodeBody q next)

/-- The program that computes classes. -/
noncomputable def quotient (p : Program) : Program := fun label =>
  { id := (p label).id
    valueType := .list
    equality := (p label).codedEquality
    body := fun key => p.encodeBody (p label) ((p label).body key) }

end Program

/-- The uses of the identities in a quotient: what is computed are lists. -/
def Usages.quotient (use : Usages) : Usages := fun query =>
  if (use query).kind = .derived then { use query with valueType := .list } else use query

section Quotient

variable {p : Program} {use : Usages} {query : QueryId}

theorem Usages.quotient_of_derived (h : (use query).kind = .derived) :
    use.quotient query = { use query with valueType := .list } := if_pos h

theorem Usages.quotient_of_input {keyType : KeyType} {valueType : ValueType}
    (h : use query = ⟨.input, keyType, valueType⟩) :
    use.quotient query = ⟨.input, keyType, valueType⟩ := by
  rw [quotient, h, if_neg (by simp)]

@[simp] theorem Usages.keyType_quotient : (use.quotient query).keyType = (use query).keyType := by
  unfold quotient
  split <;> rfl

/-- In a quotient, only alike values cannot be told apart. -/
def Usages.alike (use : Usages) : Indistinct := fun query => Value.AlikeOf (use query).valueType

theorem Program.transparent_encodeBody (p : Program) (q : Query) {b : Body} (h : Transparent b) :
    Transparent (p.encodeBody q b) := by
  induction h with
  | done r => exact .done _
  | perform _ ih => exact .perform ih
  | call error _ ih =>
    refine .call (fun e => ?_) fun v => ih _
    show p.encodeBody q (_ : Body) = _
    rw [show Except.map (p _).decode (.error e) = .error e from rfl, error]
    rfl
  | yield _ ih => exact .yield ih

namespace Program.Respectful

variable (hp : p.Respectful use)
include hp

/-- Labels that share an identity are labels of one query. -/
theorem query_eq {label label' : Label} (hid : (p label).id = (p label').id) : p label = p label' := by
  obtain ⟨hbody, hequality⟩ := hp.shared label label' hid
  have htype : (p label).valueType = (p label').valueType := by
    rw [← hp.valueType, ← hp.valueType, hid]
  generalize p label = q at hid hbody hequality htype ⊢
  generalize p label' = q' at hid hbody hequality htype ⊢
  cases q
  cases q'
  simp only at hid hbody hequality htype
  rw [hid, hbody, hequality, htype]

theorem valueType_quotient (label : Label) :
    use.quotient (p label).id = ⟨.derived, (use (p label).id).keyType, .list⟩ := by
  simp only [Usages.quotient_of_derived (hp.derived label), hp.derived]

/-- Bodies whose results are related have alike codes. -/
theorem lawful_encodeBody {label : Label} {b c : Body} (h : Respects p use (p label).Same b c) :
    Lawful p.quotient use.quotient use.quotient.alike False .list (p.encodeBody (p label) b)
      (p.encodeBody (p label) c) := by
  induction h with
  | done h =>
    refine .done ?_
    cases h with
    | ok h =>
      obtain ⟨hv, hw, hrelates⟩ := h
      exact .ok ⟨(p label).type_encode _, (Query.alike_encode (hp.regular label) hv hw).2 hrelates⟩
    | error e => exact .error e
  | read typed _ ih => exact .read (Usages.quotient_of_input typed) ih
  | check _ ih => exact .check ih
  | allocate _ ih => exact .allocate ih
  | @call mode label' key next next' typed _ ih =>
    refine .call ?_ nofun fun r r' h => ih _ _ ?_
    · rw [Usages.keyType_quotient]
      exact typed
    · cases h with
      | ok h => exact .ok (Query.same_decode (hp.regular label') h.2)
      | error e => exact .error e

/-- The quotient of a program that respects its equalities is pure. -/
theorem pure_quotient : p.quotient.Pure use.quotient use.quotient.alike False where
  symm _ _ _ h := h.symm
  trans _ _ _ _ h h' := ⟨h.1, h.2.trans h'.2⟩
  alike _ _ _ h := h
  faithful label v w hv _ h :=
    ⟨hv.trans (congrArg Usage.valueType (hp.valueType_quotient label)).symm,
      Query.alike_of_codedEquality (hp.regular label) h⟩
  derived label := congrArg Usage.kind (hp.valueType_quotient label)
  valueType label := congrArg Usage.valueType (hp.valueType_quotient label)
  shared label label' hid := by
    simp only [quotient, hp.query_eq hid, and_self]
  lawful label key typed := by
    rw [Usages.keyType_quotient] at typed
    exact hp.lawful_encodeBody (hp.respects label key typed)

end Program.Respectful

end Quotient

end RedGreen
