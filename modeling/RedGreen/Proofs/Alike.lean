import RedGreen.Error
import RedGreen.Value

set_option autoImplicit false

/-! # Values and results up to the identity of lists

A list value carries the number of the allocation that made it. Two runs of one body make two
allocations, so what they produce can only be compared up to these numbers. A value without its
number is *bare*, and two values are *alike* if their bare forms are the same. Results *agree* if
they are the same error or related values. -/

namespace RedGreen

namespace Value

/-- A value without the identity of a list. -/
def bare : Value → Value
  | .list _ items => .list 0 items
  | v => v

/-- Equal up to the identity of lists. -/
def Alike (v w : Value) : Prop := v.bare = w.bare

instance (v w : Value) : Decidable (v.Alike w) := inferInstanceAs (Decidable (v.bare = w.bare))

theorem alike_refl (v : Value) : v.Alike v := rfl

theorem Alike.symm {v w : Value} (h : v.Alike w) : w.Alike v := Eq.symm h

theorem Alike.trans {u v w : Value} (h : u.Alike v) (h' : v.Alike w) : u.Alike w := Eq.trans h h'

@[simp] theorem bare_bare (v : Value) : v.bare.bare = v.bare := by
  cases v <;> rfl

theorem alike_bare (v : Value) : v.Alike v.bare := (bare_bare v).symm

@[simp] theorem type_bare (v : Value) : v.bare.type = v.type := by
  cases v <;> rfl

theorem Alike.type {v w : Value} (h : v.Alike w) : v.type = w.type := by
  rw [← type_bare v, h, type_bare]

/-- Values of one type that are equal up to the identity of lists. -/
def AlikeOf (τ : ValueType) (v w : Value) : Prop := v.type = τ ∧ v.Alike w

theorem alikeOf_refl {τ : ValueType} {v : Value} (h : v.type = τ) : v.AlikeOf τ v :=
  ⟨h, v.alike_refl⟩

theorem AlikeOf.symm {τ : ValueType} {v w : Value} (h : v.AlikeOf τ w) : w.AlikeOf τ v :=
  ⟨h.2.type ▸ h.1, h.2.symm⟩

end Value

/-- Two results agree: both are the same error, or both are values, and these are related. -/
inductive Agree {α β : Type} (r : α → β → Prop) :
    Except QueryError α → Except QueryError β → Prop
  | ok {a : α} {b : β} (h : r a b) : Agree r (.ok a) (.ok b)
  | error (e : QueryError) : Agree r (.error e) (.error e)

namespace Agree

variable {α β γ : Type} {r : α → β → Prop}

@[simp] theorem ok_ok {a : α} {b : β} : Agree r (.ok a) (.ok b) ↔ r a b :=
  ⟨fun | .ok h => h, .ok⟩

@[simp] theorem not_ok_error {a : α} {e : QueryError} : ¬Agree r (.ok a) (.error e) := nofun

theorem of_ok_left {a : α} {y : Except QueryError β} (h : Agree r (.ok a) y) :
    ∃ b, y = .ok b ∧ r a b := by
  cases h with
  | ok h => exact ⟨_, rfl, h⟩

theorem of_ok_right {x : Except QueryError α} {b : β} (h : Agree r x (.ok b)) :
    ∃ a, x = .ok a ∧ r a b := by
  cases h with
  | ok h => exact ⟨_, rfl, h⟩

theorem of_error_left {e : QueryError} {y : Except QueryError β} (h : Agree r (.error e) y) :
    y = .error e := by
  cases h
  rfl

theorem mono {s : α → β → Prop} {x : Except QueryError α} {y : Except QueryError β}
    (h : Agree r x y) (hs : ∀ a b, r a b → s a b) : Agree s x y := by
  cases h with
  | ok h => exact .ok (hs _ _ h)
  | error e => exact .error e

theorem symm {s : β → α → Prop} {x : Except QueryError α} {y : Except QueryError β}
    (h : Agree r x y) (hs : ∀ a b, r a b → s b a) : Agree s y x := by
  cases h with
  | ok h => exact .ok (hs _ _ h)
  | error e => exact .error e

theorem trans {s : β → γ → Prop} {t : α → γ → Prop} {x : Except QueryError α}
    {y : Except QueryError β} {z : Except QueryError γ} (h : Agree r x y) (h' : Agree s y z)
    (ht : ∀ a b c, r a b → s b c → t a c) : Agree t x z := by
  cases h with
  | ok h =>
    cases h' with
    | ok h' => exact .ok (ht _ _ _ h h')
  | error e =>
    cases h'
    exact .error e

end Agree

end RedGreen
