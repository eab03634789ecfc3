import RedGreen.Proofs.Alike
import RedGreen.Value.Equality

set_option autoImplicit false

/-! # What an equality for early cutoff relates

The equality of a query need not hold of a value and itself, and it may look at the identity of lists.
Of two runs the allocations are different ones, so their values are compared up to allocations: an
equality *relates* two values if they are alike, or if it holds of values that are alike to them and
can exist side by side (`Equivalence.Relates`). Where the equality is symmetric and transitive, and
learns no more from allocations than whether two lists are one, this is an equivalence
(`Regular.relates_trans`). All equalities that have a name are of this kind
(`Equality.regular_same`). -/

namespace RedGreen

namespace Value

/-- Two values can exist side by side: an allocation holds one list. -/
def Coherent : Value → Value → Prop
  | .list m items, .list n items' => m = n → items = items'
  | _, _ => True

/-- Two lists are one allocation. -/
def Shares : Value → Value → Prop
  | .list m _, .list n _ => m = n
  | _, _ => False

theorem Coherent.symm {v w : Value} (h : v.Coherent w) : w.Coherent v := by
  cases v with
  | list m items =>
    cases w with
    | list n items' => exact fun heq => (h heq.symm).symm
    | int | str | bool | float | res => trivial
  | int | str | bool | float | res => cases w <;> trivial

theorem coherent_of_not_shares {v w : Value} (h : ¬v.Shares w) : v.Coherent w := by
  cases v with
  | list m items =>
    cases w with
    | list n items' => exact fun heq => absurd heq h
    | int | str | bool | float | res => trivial
  | int | str | bool | float | res => cases w <;> trivial

/-- What shares an allocation is alike. -/
theorem Shares.alike {v w : Value} (h : v.Shares w) (hcoherent : v.Coherent w) : v.Alike w := by
  cases v with
  | list m items =>
    cases w with
    | list n items' => exact congrArg (Value.list 0) (hcoherent h)
    | int | str | bool | float | res => exact h.elim
  | int | str | bool | float | res => cases w <;> exact h.elim

/-- A number that the allocation of a value is below. -/
def ceiling : Value → Nat
  | .list n _ => n + 1
  | _ => 0

/-- Every value is alike to one that shares no allocation with two given ones. -/
theorem exists_apart (u v w : Value) : ∃ u', u'.Alike u ∧ ¬v.Shares u' ∧ ¬w.Shares u' := by
  cases u with
  | list n items =>
    have hfresh (x : Value) (k : Nat) (hk : x.ceiling ≤ k) : ¬x.Shares (.list k items) := by
      cases x with
      | list m items' => exact fun heq => Nat.ne_of_lt hk heq
      | int | str | bool | float | res => exact not_false
    exact ⟨.list (v.ceiling + w.ceiling) items, rfl, hfresh v _ (Nat.le_add_right _ _),
      hfresh w _ (Nat.le_add_left _ _)⟩
  | int | str | bool | float | res =>
    refine ⟨_, alike_refl _, ?_, ?_⟩
    · cases v <;> exact not_false
    · cases w <;> exact not_false

end Value

/-! ## Regular equalities -/

/-- An equality among the values of a type: symmetric and transitive, as far as values can exist side by
    side. From allocations it learns no more than whether two lists are one. -/
structure Equivalence.Regular (e : Equivalence) (τ : ValueType) : Prop where
  symm : ∀ v w, v.type = τ → w.type = τ → v.Coherent w → e v w = true → e w v = true
  trans : ∀ u v w, u.type = τ → v.type = τ → w.type = τ → u.Coherent v → v.Coherent w → u.Coherent w →
    e u v = true → e v w = true → e u w = true
  natural : ∀ v w v' w', v.type = τ → w.type = τ → v'.Alike v → w'.Alike w → v.Coherent w →
    v'.Coherent w' → (v'.Shares w' ↔ v.Shares w) → e v' w' = e v w

/-- Equal up to the identity of lists, or related by an equality. -/
inductive Equivalence.Relates (e : Equivalence) (v w : Value) : Prop
  | alike (h : v.Alike w) : Relates e v w
  | equal {v' w' : Value} (left : v'.Alike v) (right : w'.Alike w) (coherent : v'.Coherent w')
    (h : e v' w' = true) : Relates e v w

namespace Equivalence

variable {e : Equivalence} {τ : ValueType} {u v w : Value}

/-- What an equality holds of, it relates. -/
theorem relates_of_equal (hcoherent : v.Coherent w) (h : e v w = true) : e.Relates v w :=
  .equal v.alike_refl w.alike_refl hcoherent h

namespace Regular

variable (he : e.Regular τ)
include he

theorem relates_symm (hv : v.type = τ) (hw : w.type = τ) (h : e.Relates v w) : e.Relates w v := by
  cases h with
  | alike h => exact .alike h.symm
  | equal left right coherent h =>
    exact .equal right left coherent.symm
      (he.symm _ _ (left.type.trans hv) (right.type.trans hw) coherent h)

theorem relates_trans (hu : u.type = τ) (hv : v.type = τ) (hw : w.type = τ) (h : e.Relates u v)
    (h' : e.Relates v w) : e.Relates u w := by
  cases h with
  | alike h =>
    cases h' with
    | alike h' => exact .alike (h.trans h')
    | equal left right coherent h' => exact .equal (left.trans h.symm) right coherent h'
  | @equal u₁ v₁ left right coherent h =>
    cases h' with
    | alike h' => exact .equal left (right.trans h') coherent h
    | @equal v₂ w₂ left' right' coherent' h' =>
      by_cases hshares : v₂.Shares w₂
      · -- one list in two places: the second step does not lead further
        have halike := hshares.alike coherent'
        exact .equal left (right.trans (left'.symm.trans (halike.trans right'))) coherent h
      · -- the second step is taken from where the first one ends, with a list of its own
        obtain ⟨w₃, hw₃, hapart, hapart'⟩ := Value.exists_apart w₂ u₁ v₁
        have hu₁ := left.type.trans hu
        have hv₁ := right.type.trans hv
        have hv₂ := left'.type.trans hv
        have hw₂ := right'.type.trans hw
        have hcoherent := Value.coherent_of_not_shares hapart'
        have hmoved : e v₁ w₃ = true := by
          rw [he.natural v₂ w₂ v₁ w₃ hv₂ hw₂ (right.trans left'.symm) hw₃ coherent' hcoherent
            (iff_of_false hapart' hshares)]
          exact h'
        exact .equal left (hw₃.trans right') (Value.coherent_of_not_shares hapart)
          (he.trans u₁ v₁ w₃ hu₁ hv₁ (hw₃.type.trans hw₂) coherent hcoherent
            (Value.coherent_of_not_shares hapart) h hmoved)

end Regular

/-! Where nothing is looked at but the content, symmetry and transitivity are enough, and an equality
relates what is alike or what it holds of. -/

section Content

variable (hcontent : ∀ v w v' w' : Value, v'.Alike v → w'.Alike w → e v' w' = e v w)
include hcontent

theorem regular_of_content (hsymm : ∀ v w, v.type = τ → w.type = τ → e v w = true → e w v = true)
    (htrans : ∀ u v w, u.type = τ → v.type = τ → w.type = τ → e u v = true → e v w = true →
      e u w = true) : e.Regular τ where
  symm v w hv hw _ h := hsymm v w hv hw h
  trans u v w hu hv hw _ _ _ h h' := htrans u v w hu hv hw h h'
  natural v w v' w' _ _ hv hw _ _ _ := hcontent v w v' w' hv hw

theorem relates_iff_of_content : e.Relates v w ↔ v.Alike w ∨ e v w = true := by
  constructor
  · rintro (h | ⟨left, right, -, h⟩)
    · exact .inl h
    · exact .inr (hcontent v w _ _ left right ▸ h)
  · rintro (h | h)
    · exact .alike h
    · -- a copy of the one shares nothing with the other
      obtain ⟨v', hv', hapart, -⟩ := Value.exists_apart v w w
      exact .equal hv' w.alike_refl (Value.coherent_of_not_shares hapart).symm
        ((hcontent v w v' w hv' w.alike_refl).trans h)

end Content

end Equivalence

/-! ## The equalities that have a name -/

theorem Float64.equal_trans {x y z : Float64} (h : x.equal y = true) (h' : y.equal z = true) :
    x.equal z = true := by
  simp only [Float64.equal, Bool.and_eq_true, Bool.or_eq_true, Bool.not_eq_true', beq_iff_eq] at *
  obtain ⟨⟨hx, -⟩, hxy⟩ := h
  obtain ⟨⟨-, hz⟩, hyz⟩ := h'
  refine ⟨⟨hx, hz⟩, ?_⟩
  rcases hxy with rfl | ⟨hx, hy⟩
  · exact hyz
  · rcases hyz with rfl | ⟨-, hz⟩
    · exact .inr ⟨hx, hy⟩
    · exact .inr ⟨hx, hz⟩

namespace Value

theorem equal_symm {v w : Value} (h : v.equal w = true) : w.equal v = true := by
  cases v <;> cases w <;> simp_all [equal, Float64.equal_comm]

theorem equal_trans {u v w : Value} (h : u.equal v = true) (h' : v.equal w = true) :
    u.equal w = true := by
  cases u <;> cases v <;> cases w <;> simp_all [equal]
  exact Float64.equal_trans h h'

theorem equal_congr {v w v' w' : Value} (hv : v'.Alike v) (hw : w'.Alike w) :
    v'.equal w' = v.equal w := by
  cases v <;> cases v' <;> cases hv <;> cases w <;> cases w' <;> cases hw <;> rfl

end Value

namespace Equality

theorem same_symm (equality : Equality) {v w : Value} (h : equality.same v w = true) :
    equality.same w v = true := by
  cases equality with
  | content => exact Value.equal_symm h
  | never => cases h
  | always => rfl
  | parity =>
    cases v <;> cases w <;> simp_all [same]
    omega
  | bits => cases v <;> cases w <;> simp_all [same, Float64.sameBits]
  | okOrInvalidate =>
    cases v <;> cases w <;> simp_all [same]
    rename_i a b
    cases a <;> cases b <;> simp_all [Attempt.okOrInvalidate]
  | ignoreErr =>
    cases v <;> cases w <;> simp_all [same]
    rename_i a b
    cases a <;> cases b <;> simp_all [Attempt.ignoreErr]
  | pointer => cases v <;> cases w <;> simp_all [same]

theorem same_trans (equality : Equality) {u v w : Value} (h : equality.same u v = true)
    (h' : equality.same v w = true) : equality.same u w = true := by
  cases equality with
  | content => exact Value.equal_trans h h'
  | never => cases h
  | always => rfl
  | parity =>
    cases u <;> cases v <;> cases w <;> simp_all [same]
    omega
  | bits => cases u <;> cases v <;> cases w <;> simp_all [same, Float64.sameBits]
  | okOrInvalidate =>
    cases u <;> cases v <;> cases w <;> simp_all [same]
    rename_i a b c
    cases a <;> cases b <;> cases c <;> simp_all [Attempt.okOrInvalidate]
  | ignoreErr =>
    cases u <;> cases v <;> cases w <;> simp_all [same]
    rename_i a b c
    cases a <;> cases b <;> cases c <;> simp_all [Attempt.ignoreErr]
  | pointer => cases u <;> cases v <;> cases w <;> simp_all [same]

/-- Lists of one identity are alike, so that nobody can tell them apart: a query that compares its lists by
    their identity can belong to a pure program. -/
theorem alike_of_pointer {v w : Value} (h : pointer.same v w = true) : v.Alike w := by
  cases v <;> cases w <;> simp_all [same, Value.Alike, Value.bare]

/-- Only the equality of identities looks at them. -/
theorem same_congr {equality : Equality} (hpointer : equality ≠ .pointer) {v w v' w' : Value}
    (hv : v'.Alike v) (hw : w'.Alike w) : equality.same v' w' = equality.same v w := by
  cases equality with
  | pointer => exact absurd rfl hpointer
  | content => exact Value.equal_congr hv hw
  | never | always => rfl
  | parity | bits | okOrInvalidate | ignoreErr =>
    cases v <;> cases v' <;> cases hv <;> cases w <;> cases w' <;> cases hw <;> rfl

/-- All equalities that have a name are regular. -/
theorem regular_same (equality : Equality) (τ : ValueType) :
    Equivalence.Regular equality.same τ := by
  by_cases hpointer : equality = .pointer
  · subst hpointer
    refine ⟨fun _ _ _ _ _ => same_symm _, fun _ _ _ _ _ _ _ _ _ => same_trans _, ?_⟩
    intro v w v' w' _ _ hv hw _ _ hshares
    cases v <;> cases v' <;> cases hv <;> cases w <;> cases w' <;> cases hw <;> try rfl
    exact Bool.eq_iff_iff.2 (by simpa [same, Value.Shares] using fun _ => hshares)
  · exact Equivalence.regular_of_content (fun _ _ _ _ => same_congr hpointer)
      (fun _ _ _ _ => same_symm _) fun _ _ _ _ _ _ => same_trans _

end Equality

end RedGreen
