import RedGreen.Integer
import RedGreen.Program

set_option autoImplicit false

/-! # Scripts: a small language for bodies

Bodies are written as expressions. An expression has a datum: a value, or one of the two forms that
only keys have. It can bind variables, branch, compute with integers and texts, read inputs, call
queries, recover from errors, and observe or cancel its own request. -/

namespace RedGreen.Script

/-- What an expression evaluates to. -/
inductive Datum where
  | unit
  | pair (n : Int) (s : String)
  | value (v : Value)
deriving DecidableEq, Repr

namespace Datum

/-- Equality by content; data of different types are different. -/
def equal : Datum → Datum → Bool
  | .unit, .unit => true
  | .pair m s, .pair n t => m == n && s == t
  | .value a, .value b => a.equal b
  | _, _ => false

/-- The key of a given type that a datum stands for. -/
def toKey? : KeyType → Datum → Option Key
  | .unit, .unit => some .unit
  | .int, .value (.int n) => some (.int n)
  | .str, .value (.str s) => some (.str s)
  | .pair, .pair n s => some (.pair n s)
  | .list, .value (.list _ items) => some (.list items)
  | _, _ => none

/-- The value of a given type that a datum is. -/
def toValue? (type : ValueType) : Datum → Option Value
  | .value v => if v.type = type then some v else none
  | _ => none

end Datum

/-- What an error handler recovers from. -/
inductive Handled where
  | any
  | kind (k : ErrorKind)
deriving DecidableEq, Repr

/-- Whether a handler recovers from an error. -/
def Handled.covers (h : Handled) (e : QueryError) : Bool :=
  match h with
  | .any => true
  | .kind k => e.kind == k

/-- An expression. -/
inductive Expr where
  | literal (d : Datum)
  | var (name : String)
  | bind (name : String) (e body : Expr)
  /-- Several expressions in order; the datum of the last. -/
  | seq (es : List Expr)
  | cond (test yes no : Expr)
  | arith (op : Integer.Operator) (a b : Expr)
  | less (a b : Expr)
  | equal (a b : Expr)
  | concat (a b : Expr)
  /-- The decimal text of an integer. -/
  | decimal (e : Expr)
  /-- The number of characters of a text. -/
  | chars (e : Expr)
  | ok (e : Expr)
  | err (e : Expr)
  /-- The integer of a success, or else the datum of the second expression. -/
  | resOr (res alternative : Expr)
  | list (es : List Expr)
  | pair (a b : Expr)
  | fst (e : Expr)
  | snd (e : Expr)
  /-- The sum of an expression over the items of a list. -/
  | sum (name : String) (list e : Expr)
  | read (query : QueryId) (keyType : KeyType) (valueType : ValueType) (key : Expr)
  | call (label : Label) (key : Expr)
  /-- Call a query without waiting for it. -/
  | callNow (label : Label) (key : Expr)
  | recover (e : Expr) (handled : List Handled) (handler : Expr)
  | context (message e : Expr)
  | fail (message : Expr)
  | raise (code message : Expr)
  | parse (e : Expr)
  | parseContext (message e : Expr)
  | cancel
  | check
  | revision
  /-- The text that describes the running computation. -/
  | contextText
  | yield (times : Expr)

/-- How a query is declared. A `sync` body never waits; the other two may. The declared equality of
    a `typed` query is used by every call; the others are called with equality by content. -/
inductive Api where
  | sync
  | async
  | typed
deriving DecidableEq, Repr

/-- The declaration of a query. -/
structure Declaration where
  id : QueryId
  keyType : KeyType := .unit
  valueType : ValueType := .int
  api : Api := .sync
  equality : Equality := .content
  body : Expr

/-- The declarations of a script, by label. -/
abbrev Declarations := Label → Declaration

end RedGreen.Script
