import Mathlib.Logic.Equiv.Basic
import RedGreen.Proofs.References

set_option autoImplicit false

/-! # Renaming allocations

Two systems that are asked for the same number their allocations differently. A program to which the
numbers mean nothing does the same in both, up to a renaming of the allocations: that is what it is for
a program to be *anonymous* (`Program.Anonymous`). It may still ask whether two lists are one, so the
renaming has to be a permutation.

While two runs go on side by side only some allocations have been made, and the renaming is known for
those: a list of pairs, which admits all permutations that agree with it (`Renaming.Admits`). Values and
bodies are related by the pairs if they are by every renaming that the pairs admit. A pair of new
allocations can always be added (`Renaming.Consistent.cons`). -/

namespace RedGreen

/-- A value in which the allocation has another number. -/
def Value.rename (π : Equiv.Perm Nat) : Value → Value
  | .list allocation items => .list (π allocation) items
  | v => v

/-- No equality that can be asked for by name tells allocations by their numbers. -/
theorem Equality.same_rename (equality : Equality) (π : Equiv.Perm Nat) (v w : Value) :
    equality.same (v.rename π) (w.rename π) = equality.same v w := by
  have hpermutes (m n : Nat) : (π m == π n) = (m == n) :=
    Bool.eq_iff_iff.2 (by simp only [beq_iff_eq, π.injective.eq_iff])
  cases equality <;> cases v <;> cases w <;>
    simp [Equality.same, Value.rename, Value.equal, hpermutes]

/-! ## Programs -/

/-- A body may yield: some answers lead it there. -/
inductive MayYield : Body → Prop
  | here {next : Body} : MayYield (.yield next)
  | performed {op : Operation} {next : op.Reply → Body} (r : op.Reply) (h : MayYield (next r)) :
    MayYield (.perform op next)
  | called {mode : CallMode} {label : Label} {key : Key} {next : Except QueryError Value → Body}
    (r : Except QueryError Value) (h : MayYield (next r)) : MayYield (.call mode label key next)

/-- A request for a node may be parked: it may come to a body that yields. -/
def Program.MayPark (p : Program) (n : Node) : Prop :=
  ∃ m, Relation.ReflTransGen p.Refers n m ∧
    ∃ label, (p label).id = m.query ∧ MayYield ((p label).body m.key)

theorem Program.MayPark.of_refers {p : Program} {m n : Node} (h : p.MayPark n) (hrefers : p.Refers m n) :
    p.MayPark m := by
  obtain ⟨k, hpath, hyields⟩ := h
  exact ⟨k, hpath.head hrefers, hyields⟩

/-- The second body does what the first one does under other numbers: it asks the same, in accordance
    with the uses, goes on in the same way if the answers are renamed, and ends with a value of a type
    that is renamed. A flag tells whether the bodies may yield; what may be parked they wait for. -/
inductive Renamed (p : Program) (use : Usages) (π : Equiv.Perm Nat) (yields : Prop) (τ : ValueType) :
    Body → Body → Prop
  | done {r : Except QueryError Value} (typed : ∀ v, r = .ok v → v.type = τ) :
    Renamed p use π yields τ (.done r) (.done (r.map (Value.rename π)))
  | read {query : QueryId} {valueType : ValueType} {key : Key}
    {next next' : Except QueryError Value → Body} (typed : use query = ⟨.input, key.type, valueType⟩)
    (h : ∀ r : Except QueryError Value, (∀ v, r = .ok v → v.type = valueType) →
      Renamed p use π yields τ (next r) (next' (r.map (Value.rename π)))) :
    Renamed p use π yields τ (.perform (.read query valueType key) next)
      (.perform (.read query valueType key) next')
  | check {next next' : Except QueryError Unit → Body}
    (h : ∀ r, Renamed p use π yields τ (next r) (next' r)) :
    Renamed p use π yields τ (.perform .check next) (.perform .check next')
  | allocate {next next' : Nat → Body} (h : ∀ m, Renamed p use π yields τ (next m) (next' (π m))) :
    Renamed p use π yields τ (.perform .allocate next) (.perform .allocate next')
  | call {mode : CallMode} {label : Label} {key : Key} {next next' : Except QueryError Value → Body}
    (typed : key.type = (use (p label).id).keyType)
    (waits : p.MayPark (p.node label key) → mode = .awaited)
    (h : ∀ r : Except QueryError Value, (∀ v, r = .ok v → v.type = (p label).valueType) →
      Renamed p use π yields τ (next r) (next' (r.map (Value.rename π)))) :
    Renamed p use π yields τ (.call mode label key next) (.call mode label key next')
  | yield {next next' : Body} (allowed : yields) (h : Renamed p use π yields τ next next') :
    Renamed p use π yields τ (.yield next) (.yield next')

theorem Renamed.eq_done {p : Program} {use : Usages} {π : Equiv.Perm Nat} {yields : Prop} {τ : ValueType}
    {r : Except QueryError Value} {b' : Body} (h : Renamed p use π yields τ (.done r) b') :
    b' = .done (r.map (Value.rename π)) := by
  cases h
  rfl

/-- Identities have one use each, bodies depend on nothing but their key and what they read, and neither
    they nor the equalities for early cutoff learn more from the number of an allocation than whether it
    is that of another one. Nothing else is asked of the equalities. -/
structure Program.Anonymous (p : Program) (use : Usages) : Prop extends p.Consistent use where
  equality : ∀ π label v w, v.type = (p label).valueType → w.type = (p label).valueType →
    (p label).equality (v.rename π) (w.rename π) = (p label).equality v w
  body : ∀ π label key, key.type = (use (p label).id).keyType →
    Renamed p use π (p.MayPark (p.node label key)) (p label).valueType ((p label).body key)
      ((p label).body key)

/-! ## Renamings that are known in part -/

/-- Pairs of allocations that correspond to each other. -/
abbrev Renaming := List (Nat × Nat)

namespace Renaming

variable {p : Program} {use : Usages} {ρ ρ' : Renaming} {yields : Prop} {τ : ValueType} {v v' : Value}
  {b b' : Body}

/-- A renaming agrees with the pairs. -/
def Admits (ρ : Renaming) (π : Equiv.Perm Nat) : Prop := ∀ ab ∈ ρ, π ab.1 = ab.2

/-- Some renaming agrees with the pairs. -/
def Consistent (ρ : Renaming) : Prop := ∃ π, ρ.Admits π

/-- The second value is the first one under the other numbers, and they are of a type. -/
def Renames (ρ : Renaming) (τ : ValueType) (v v' : Value) : Prop :=
  v.type = τ ∧ ∀ π, ρ.Admits π → v' = v.rename π

/-- The second body does what the first one does under the other numbers. -/
def Relates (p : Program) (use : Usages) (ρ : Renaming) (yields : Prop) (τ : ValueType) (b b' : Body) :
    Prop :=
  ∀ π, ρ.Admits π → Renamed p use π yields τ b b'

/-- The second answer is the first one under the other numbers. -/
def Answers (ρ : Renaming) : Except QueryError Stamped → Except QueryError Stamped → Prop :=
  Agree fun x x' => ∀ π, ρ.Admits π → x'.value = x.value.rename π

theorem Admits.mono {π : Equiv.Perm Nat} (h : ρ'.Admits π) (hsub : ρ ⊆ ρ') : ρ.Admits π :=
  fun ab hab => h ab (hsub hab)

theorem Renames.mono (h : ρ.Renames τ v v') (hsub : ρ ⊆ ρ') : ρ'.Renames τ v v' :=
  ⟨h.1, fun π hπ => h.2 π (hπ.mono hsub)⟩

theorem Relates.mono (h : ρ.Relates p use yields τ b b') (hsub : ρ ⊆ ρ') :
    ρ'.Relates p use yields τ b b' := fun π hπ => h π (hπ.mono hsub)

theorem consistent_nil : Consistent [] := ⟨Equiv.refl _, nofun⟩

/-- Two allocations that have no counterparts can become those of each other. -/
theorem Consistent.cons (h : ρ.Consistent) {a b : Nat} (ha : ∀ ab ∈ ρ, ab.1 ≠ a)
    (hb : ∀ ab ∈ ρ, ab.2 ≠ b) : Consistent ((a, b) :: ρ) := by
  obtain ⟨π, hπ⟩ := h
  refine ⟨π.trans (Equiv.swap (π a) b), fun ab hab => ?_⟩
  rw [Equiv.trans_apply]
  rcases List.mem_cons.1 hab with rfl | hab
  · exact Equiv.swap_apply_left _ _
  · -- the allocations that are known already are not exchanged
    rw [Equiv.swap_apply_of_ne_of_ne (π.injective.ne (ha ab hab)) (hπ ab hab ▸ hb ab hab)]
    exact hπ ab hab

/-- An equality for early cutoff holds of the values of the one run if it does of those of the other. -/
theorem Renames.equality (hp : p.Anonymous use) {label : Label} {w w' : Value}
    (hv : ρ.Renames (p label).valueType v v') (hw : ρ.Renames (p label).valueType w w')
    (hρ : ρ.Consistent) : (p label).equality v' w' = (p label).equality v w := by
  obtain ⟨π, hπ⟩ := hρ
  rw [hv.2 π hπ, hw.2 π hπ]
  exact hp.equality π label v w hv.1 hw.1

/-- A list that is allocated in both runs. -/
theorem renames_list {a b : Nat} (hab : (a, b) ∈ ρ) (items : List Int) :
    ρ.Renames .list (.list a items) (.list b items) :=
  ⟨rfl, fun π hπ => by rw [Value.rename, hπ _ hab]⟩

/-- Results that correspond to each other. -/
theorem eq_map_of_agree {r r' : Except QueryError Value} (h : Agree (ρ.Renames τ) r r')
    {π : Equiv.Perm Nat} (hπ : ρ.Admits π) :
    (∀ v, r = .ok v → v.type = τ) ∧ r' = r.map (Value.rename π) := by
  cases h with
  | ok h =>
    refine ⟨fun v hv => ?_, congrArg Except.ok (h.2 π hπ)⟩
    obtain rfl := Except.ok.inj hv
    exact h.1
  | error e => exact ⟨fun v hv => (by cases hv), rfl⟩

/-- What two bodies do next that do the same under other numbers. -/
inductive Unfolds (p : Program) (use : Usages) (ρ : Renaming) (yields : Prop) (τ : ValueType) :
    Body → Body → Prop
  | done {r r' : Except QueryError Value} (agree : Agree (ρ.Renames τ) r r') :
    Unfolds p use ρ yields τ (.done r) (.done r')
  | read {query : QueryId} {valueType : ValueType} {key : Key}
    {next next' : Except QueryError Value → Body} (typed : use query = ⟨.input, key.type, valueType⟩)
    (h : ∀ r r', Agree (ρ.Renames valueType) r r' →
      ρ.Relates p use yields τ (next r) (next' r')) :
    Unfolds p use ρ yields τ (.perform (.read query valueType key) next)
      (.perform (.read query valueType key) next')
  | check {next next' : Except QueryError Unit → Body}
    (h : ∀ r, ρ.Relates p use yields τ (next r) (next' r)) :
    Unfolds p use ρ yields τ (.perform .check next) (.perform .check next')
  | allocate {next next' : Nat → Body}
    (h : ∀ m n, Relates p use ((m, n) :: ρ) yields τ (next m) (next' n)) :
    Unfolds p use ρ yields τ (.perform .allocate next) (.perform .allocate next')
  | call {mode : CallMode} {label : Label} {key : Key} {next next' : Except QueryError Value → Body}
    (typed : key.type = (use (p label).id).keyType)
    (waits : p.MayPark (p.node label key) → mode = .awaited)
    (h : ∀ r r', Agree (ρ.Renames (p label).valueType) r r' →
      ρ.Relates p use yields τ (next r) (next' r')) :
    Unfolds p use ρ yields τ (.call mode label key next) (.call mode label key next')
  | yield {next next' : Body} (allowed : yields) (h : ρ.Relates p use yields τ next next') :
    Unfolds p use ρ yields τ (.yield next) (.yield next')

theorem Relates.unfolds (h : ρ.Relates p use yields τ b b') (hρ : ρ.Consistent) :
    Unfolds p use ρ yields τ b b' := by
  obtain ⟨π, hπ⟩ := hρ
  cases h π hπ with
  | @done r typed =>
    -- the result is the same under every renaming that is admitted
    refine .done ?_
    cases r with
    | error e => exact .error e
    | ok v =>
      refine .ok ⟨typed v rfl, fun σ hσ => ?_⟩
      exact Except.ok.inj (Computation.done.inj (h σ hσ).eq_done)
  | read typed _ =>
    refine .read typed fun r r' hr σ hσ => ?_
    obtain ⟨htyped, rfl⟩ := eq_map_of_agree hr hσ
    cases h σ hσ with
    | read _ hnext => exact hnext r htyped
  | check _ =>
    refine .check fun r σ hσ => ?_
    cases h σ hσ with
    | check hnext => exact hnext r
  | allocate _ =>
    refine .allocate fun m n σ hσ => ?_
    obtain rfl : σ m = n := hσ _ List.mem_cons_self
    cases h σ (hσ.mono (List.subset_cons_self _ _)) with
    | allocate hnext => exact hnext m
  | call typed waits _ =>
    refine .call typed waits fun r r' hr σ hσ => ?_
    obtain ⟨htyped, rfl⟩ := eq_map_of_agree hr hσ
    cases h σ hσ with
    | call _ _ hnext => exact hnext r htyped
  | yield allowed _ =>
    refine .yield allowed fun σ hσ => ?_
    cases h σ hσ with
    | yield _ hnext => exact hnext

end Renaming

end RedGreen
