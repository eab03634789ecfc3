import RedGreen.Computation

set_option autoImplicit false

/-! # Programs: the queries a system can be asked

A program gives every label a query: its identity and the type of its values, which select the slots
that it uses; the equality for early cutoff; and the body that computes the value for a key. -/

namespace RedGreen

/-- A query. -/
structure Query where
  id : QueryId
  valueType : ValueType
  /-- When a recomputed value counts as unchanged. -/
  equality : Equivalence
  /-- The computation of the value for a key. -/
  body : Key → Body

/-- A program: the query behind each label. -/
abbrev Program := Label → Query

end RedGreen
