import RedGreen.Text.Quoted

set_option autoImplicit false

/-! # Query identities and argument keys

A query or an input has an identity, a name; its values are told apart by an argument key. Both the
name and the text of the key go into the text of a slot, which names it in messages. -/

namespace RedGreen

/-- The identity of a query or of an input. -/
structure QueryId where
  name : String
deriving DecidableEq, Repr

namespace QueryId

/-- The long text of an identity. -/
def debugText (q : QueryId) : String := "QueryId(" ++ Text.quote q.name ++ ")"

/-- Identities are ordered by name, code point by code point. -/
instance : Ord QueryId := ⟨fun a b => compare a.name b.name⟩

/-- Types that a query can be named after. -/
inductive Namesake where
  | unit
  | int
  | str
  | bool
deriving DecidableEq, Repr

/-- The identity of the query that is named after a type. -/
def of : Namesake → QueryId
  | .unit => ⟨"()"⟩
  | .int => ⟨"i64"⟩
  | .str => ⟨"str"⟩
  | .bool => ⟨"bool"⟩

end QueryId

/-- The types that argument keys have. -/
inductive KeyType where
  | unit
  | int
  | str
  | pair
  | list
deriving DecidableEq, Repr

/-- An argument key. -/
inductive Key where
  | unit
  | int (n : Int)
  | str (s : String)
  | pair (n : Int) (s : String)
  | list (items : List Int)
deriving DecidableEq, Repr

namespace Key

/-- The type of a key. -/
def type : Key → KeyType
  | .unit => .unit
  | .int _ => .int
  | .str _ => .str
  | .pair _ _ => .pair
  | .list _ => .list

/-- The text of a key: decimal integers, quoted strings, and brackets around several parts. -/
def text : Key → String
  | .unit => "()"
  | .int n => Int.repr n
  | .str s => Text.quote s
  | .pair n s => "(" ++ Int.repr n ++ ", " ++ Text.quote s ++ ")"
  | .list items => Text.bracketed (items.map Int.repr)

end Key

end RedGreen
