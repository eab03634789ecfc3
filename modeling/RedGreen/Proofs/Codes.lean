import Mathlib.Data.Countable.Basic
import Mathlib.Logic.Equiv.List
import Mathlib.Logic.Relation
import Mathlib.Tactic.DeriveCountable
import RedGreen.Proofs.Equalities

set_option autoImplicit false

/-! # Values coded by their classes

The values of a type, up to what an equality relates, are coded as lists: the items of a code tell the
class of the value, and its allocation tells the value itself. So codes are alike exactly if the values
are related (`Classes.alike_encode`), while no value is lost (`Classes.decode_encode`). There are such codes
because values can be counted. -/

namespace RedGreen

/-! ## Values can be counted -/

instance instCountableChar : Countable Char :=
  Function.Injective.countable (f := Char.toNat) fun _ _ h => Char.toNat_inj.1 h

instance instCountableString : Countable String :=
  Function.Injective.countable (f := String.toList) fun _ _ h => String.toList_inj.1 h

instance instCountableFloat64 : Countable Float64 :=
  Function.Injective.countable (f := fun x : Float64 => x.bits.toNat) fun x y h => by
    cases x
    cases y
    simpa [UInt64.toNat_inj] using h

deriving instance Countable for Attempt, Value

/-- There are values of every type. -/
def ValueType.sample : ValueType → Value
  | .int => .int 0
  | .str => .str ""
  | .bool => .bool false
  | .float => .float ⟨0⟩
  | .res => .res (.ok 0)
  | .list => .list 0 []

theorem ValueType.type_sample (τ : ValueType) : τ.sample.type = τ := by
  cases τ <;> rfl

/-! ## Codes -/

/-- The values of a type. -/
abbrev ValueType.Values (τ : ValueType) := { v : Value // v.type = τ }

/-- The values of a type in classes. -/
abbrev Classes (τ : ValueType) := Setoid τ.Values

namespace Classes

variable {τ : ValueType} (classes : Classes τ)

/-- The number of a class. -/
noncomputable def number : Quotient classes → Nat := (exists_injective_nat _).choose

theorem number_injective : Function.Injective classes.number := (exists_injective_nat _).choose_spec

/-- The code of a value: its class, in an allocation of its own. -/
noncomputable def encode (v : Value) : Value :=
  if hv : v.type = τ then
    .list ((exists_injective_nat τ.Values).choose ⟨v, hv⟩) [(classes.number ⟦⟨v, hv⟩⟧ : Int)]
  else .list 0 []

/-- A list has the items of a class. -/
def Names (a : Value) (q : Quotient classes) : Prop := a.Alike (.list 0 [(classes.number q : Int)])

open Classical in
/-- The value of a code; for a list that is none, a value of the class that it names, if it names
    one. -/
noncomputable def decode (a : Value) : τ.Values :=
  if hexact : ∃ v : τ.Values, classes.encode v = a then hexact.choose
  else if hclass : ∃ q, classes.Names a q then hclass.choose.out
  else ⟨τ.sample, τ.type_sample⟩

theorem encode_eq (v : τ.Values) : classes.encode v =
    .list ((exists_injective_nat τ.Values).choose v) [(classes.number ⟦v⟧ : Int)] := dif_pos v.2

theorem type_encode (v : Value) : (classes.encode v).type = .list := by
  unfold encode
  split <;> rfl

theorem names_encode (v : τ.Values) : classes.Names (classes.encode v) ⟦v⟧ := by
  rw [encode_eq]
  rfl

variable {classes}

theorem Names.unique {a : Value} {q q' : Quotient classes} (h : classes.Names a q)
    (h' : classes.Names a q') : q = q' := by
  have hitems := h.symm.trans h'
  simp only [Value.Alike, Value.bare, Value.list.injEq, List.cons.injEq, Int.natCast_inj] at hitems
  exact classes.number_injective hitems.2.1

theorem encode_injective {v w : τ.Values} (h : classes.encode v = classes.encode w) : v = w := by
  rw [encode_eq, encode_eq] at h
  exact (exists_injective_nat τ.Values).choose_spec (Value.list.inj h).1

/-- No value is lost. -/
@[simp] theorem decode_encode (v : τ.Values) : classes.decode (classes.encode v) = v := by
  have hexact : ∃ v' : τ.Values, classes.encode v' = classes.encode v := ⟨v, rfl⟩
  exact (dif_pos hexact).trans (encode_injective hexact.choose_spec)

/-- What names a class is decoded into it. -/
theorem Names.decode {a : Value} {q : Quotient classes} (h : classes.Names a q) :
    ⟦classes.decode a⟧ = q := by
  by_cases hexact : ∃ v : τ.Values, classes.encode v = a
  · obtain ⟨v, rfl⟩ := hexact
    rw [decode_encode]
    exact (classes.names_encode v).unique h
  · have hclass : ∃ q, classes.Names a q := ⟨q, h⟩
    have hout : classes.decode a = hclass.choose.out := (dif_neg hexact).trans (dif_pos hclass)
    rw [hout, Quotient.out_eq]
    exact hclass.choose_spec.unique h

/-- What names no class is decoded to one value. -/
theorem decode_of_not_names {a : Value} (h : ¬∃ q, classes.Names a q) :
    classes.decode a = ⟨τ.sample, τ.type_sample⟩ := by
  have hexact : ¬∃ v : τ.Values, classes.encode v = a := by
    rintro ⟨v, rfl⟩
    exact h ⟨_, classes.names_encode v⟩
  exact (dif_neg hexact).trans (dif_neg h)

/-- Codes are alike if the values are of one class. -/
theorem alike_encode {v w : τ.Values} :
    (classes.encode v).Alike (classes.encode w) ↔ classes v w := by
  constructor
  · intro h
    exact Quotient.exact ((classes.names_encode v).unique (h.trans (classes.names_encode w)))
  · intro h
    have hw := classes.names_encode w
    rw [← Quotient.sound h] at hw
    exact (classes.names_encode v).trans hw.symm

/-- Alike lists, codes or not, are decoded to values of one class. -/
theorem class_decode {a b : Value} (h : a.Alike b) : classes (classes.decode a) (classes.decode b) := by
  by_cases hclass : ∃ q, classes.Names a q
  · obtain ⟨q, hq⟩ := hclass
    exact Quotient.exact (hq.decode.trans (Names.decode (h.symm.trans hq)).symm)
  · have hclass' : ¬∃ q, classes.Names b q := fun ⟨q, hq⟩ => hclass ⟨q, h.trans hq⟩
    have hsame : classes.decode a = classes.decode b :=
      (decode_of_not_names hclass).trans (decode_of_not_names hclass').symm
    exact hsame ▸ classes.refl _

end Classes

/-! ## The classes of an equality -/

/-- The values of a type by what an equality relates. -/
abbrev Equivalence.classes (e : Equivalence) (τ : ValueType) : Classes τ :=
  Relation.EqvGen.setoid fun v w => e.Relates v w

/-- What a regular equality relates is a class as it stands. -/
theorem Equivalence.Regular.classes_iff {e : Equivalence} {τ : ValueType} (he : e.Regular τ)
    {v w : τ.Values} : e.classes τ v w ↔ e.Relates v w := by
  refine ⟨fun h => ?_, fun h => Relation.EqvGen.rel v w h⟩
  replace h : Relation.EqvGen (fun v w : τ.Values => e.Relates v w) v w := h
  induction h with
  | rel v w h => exact h
  | refl v => exact .alike v.1.alike_refl
  | symm v w _ ih => exact he.relates_symm v.2 w.2 ih
  | trans u v w _ _ ih ih' => exact he.relates_trans u.2 v.2 w.2 ih ih'

end RedGreen
