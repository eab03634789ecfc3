set_option autoImplicit false

/-! # Things kept by name

A client of a session keeps tasks, tokens and guards under names of its own choice. There is at most
one thing of a name: a later one replaces an earlier one. -/

namespace RedGreen

/-- Things kept by name. -/
structure Named (α : Type) where
  entries : List (String × α) := []

namespace Named

variable {α : Type}

/-- What is kept under a name. -/
def get? (n : Named α) (name : String) : Option α := n.entries.lookup name

/-- Forgets a name. -/
def erase (n : Named α) (name : String) : Named α := ⟨n.entries.filter (·.1 != name)⟩

/-- Keeps something under a name. -/
def insert (n : Named α) (name : String) (a : α) : Named α := ⟨(name, a) :: (n.erase name).entries⟩

theorem get?_insert_self (n : Named α) (name : String) (a : α) :
    (n.insert name a).get? name = some a := by
  simp [get?, insert]

theorem get?_erase_self (n : Named α) (name : String) : (n.erase name).get? name = none := by
  simp only [get?, erase, List.lookup_eq_none_iff, List.mem_filter, bne_iff_ne]
  intro p hp
  simpa using fun h => hp.2 h.symm

theorem get?_erase_of_ne (n : Named α) {name other : String} (h : other ≠ name) :
    (n.erase name).get? other = n.get? other := by
  obtain ⟨entries⟩ := n
  simp only [get?, erase]
  induction entries with
  | nil => rfl
  | cons entry entries ih =>
    obtain ⟨key, a⟩ := entry
    by_cases hk : key = name
    · have hne : (other == key) = false := by simpa [hk] using h
      simp [List.lookup_cons, hk ▸ hne, hk, ih]
    · simp [List.lookup_cons, hk, ih]

theorem get?_insert_of_ne (n : Named α) {name other : String} (h : other ≠ name) (a : α) :
    (n.insert name a).get? other = n.get? other := by
  have hne : (other == name) = false := by simpa using h
  rw [← get?_erase_of_ne n h]
  simp [get?, insert, List.lookup_cons, hne]

end Named

end RedGreen
