import RedGreen.Script

set_option autoImplicit false

/-! # The computation an expression stands for

Evaluation goes from left to right and the first error ends it. An operand of a wrong type is a
failure as soon as that operand has been evaluated, before later operands are looked at. -/

namespace RedGreen.Script

/-- What evaluation produces: a computation that may end in an error. -/
abbrev Eval := ExceptT QueryError Computation

namespace Eval

/-- Asks the system and goes on with its answer. -/
def ask (op : Operation) : Eval op.Reply := ExceptT.lift (Computation.ask op)

/-- Fails with the error in an answer, if there is one. -/
def ofExcept {α : Type} (r : Except QueryError α) : Eval α := ExceptT.mk (pure r)

/-- Fails with a plain text. -/
def failWith {α : Type} (text : String) : Eval α := throw (.failed text)

/-- The failure of an operand that has a wrong type. -/
def typeError {α : Type} : Eval α := failWith "type error"

end Eval

namespace Datum

/-- Demands an integer. -/
def toInt : Datum → Eval Int
  | .value (.int n) => pure n
  | _ => Eval.typeError

/-- Demands a text. -/
def toStr : Datum → Eval String
  | .value (.str s) => pure s
  | _ => Eval.typeError

/-- Demands a truth value. -/
def toBool : Datum → Eval Bool
  | .value (.bool b) => pure b
  | _ => Eval.typeError

/-- Demands a result. -/
def toAttempt : Datum → Eval Attempt
  | .value (.res a) => pure a
  | _ => Eval.typeError

/-- Demands a list. -/
def toItems : Datum → Eval (List Int)
  | .value (.list _ items) => pure items
  | _ => Eval.typeError

/-- Demands a pair. -/
def toPair : Datum → Eval (Int × String)
  | .pair n s => pure (n, s)
  | _ => Eval.typeError

/-- Demands a key of a type. -/
def toKey (type : KeyType) (d : Datum) : Eval Key :=
  match d.toKey? type with
  | some key => pure key
  | none => Eval.typeError

/-- Demands a value of a type. -/
def toValue (type : ValueType) (d : Datum) : Eval Value :=
  match d.toValue? type with
  | some v => pure v
  | none => Eval.typeError

/-- The datum of an integer. -/
def ofInt (n : Int) : Datum := .value (.int n)

/-- The datum of a text. -/
def ofStr (s : String) : Datum := .value (.str s)

/-- A list in an allocation of its own. -/
def ofItems (items : List Int) : Eval Datum := do
  let allocation ← Eval.ask .allocate
  return .value (.list allocation items)

/-- The datum of a key. -/
def ofKey : Key → Eval Datum
  | .unit => pure .unit
  | .int n => pure (ofInt n)
  | .str s => pure (ofStr s)
  | .pair n s => pure (.pair n s)
  | .list items => ofItems items

end Datum

/-- The operation of integers; a fault is a failure. -/
def applyOperator (op : Integer.Operator) (a b : Int) : Eval Int :=
  match op.apply a b with
  | .ok n => pure n
  | .error fault => Eval.failWith fault.message

/-- Adds up the results of a step over the items of a list, from the left. -/
def sumOver (step : Int → Eval Int) : Int → List Int → Eval Int
  | total, [] => pure total
  | total, item :: items => do
    let n ← step item
    let total ← applyOperator .add total n
    sumOver step total items

/-- The text that describes a running computation. -/
def contextText (slot : SlotId) (revision : Revision) : String :=
  "QueryContext \x7b slot: " ++ slot.debugText ++ ", revision: " ++ revision.debugText ++
    ", .. \x7d"

/-- Calls the query of a declaration. The key is checked before anything is touched. -/
def callQuery (mode : CallMode) (label : Label) (key : Key) : Eval Datum :=
  ExceptT.mk (.call mode label key fun reply => .done (reply.map .value))

/-- Calls a query from a body that does not wait: an `async` query cannot be called at all. -/
def callImmediate (declarations : Declarations) (label : Label) (key : Key) : Eval Datum :=
  match (declarations label).api with
  | .async => Eval.failWith "async query called from sync code"
  | .sync | .typed => callQuery .immediate label key

/-- Calls a query from a body that may wait. It waits for the queries that may wait themselves. -/
def callAwaited (declarations : Declarations) (label : Label) (key : Key) : Eval Datum :=
  match (declarations label).api with
  | .sync => callQuery .immediate label key
  | .async | .typed => callQuery .awaited label key

/-- The variables in scope, innermost first. -/
abbrev Scope := List (String × Datum)

mutual

/-- The computation of an expression, in a body that may wait or may not. -/
def Expr.eval (declarations : Declarations) (waits : Bool) (scope : Scope) : Expr → Eval Datum
  | .literal d => pure d
  | .var name =>
    match scope.lookup name with
    | some d => pure d
    | none => Eval.typeError
  | .bind name e body => do
    let d ← e.eval declarations waits scope
    body.eval declarations waits ((name, d) :: scope)
  | .seq es => evalSeq declarations waits scope .unit es
  | .cond test yes no => do
    let b ← (← test.eval declarations waits scope).toBool
    if b then yes.eval declarations waits scope else no.eval declarations waits scope
  | .arith op a b => do
    let m ← (← a.eval declarations waits scope).toInt
    let n ← (← b.eval declarations waits scope).toInt
    Datum.ofInt <$> applyOperator op m n
  | .less a b => do
    let m ← (← a.eval declarations waits scope).toInt
    let n ← (← b.eval declarations waits scope).toInt
    return .value (.bool (m < n))
  | .equal a b => do
    let x ← a.eval declarations waits scope
    let y ← b.eval declarations waits scope
    return .value (.bool (x.equal y))
  | .concat a b => do
    let s ← (← a.eval declarations waits scope).toStr
    let t ← (← b.eval declarations waits scope).toStr
    return Datum.ofStr (s ++ t)
  | .decimal e => do
    let n ← (← e.eval declarations waits scope).toInt
    return Datum.ofStr (Int.repr n)
  | .chars e => do
    let s ← (← e.eval declarations waits scope).toStr
    return Datum.ofInt s.length
  | .ok e => do
    let n ← (← e.eval declarations waits scope).toInt
    return .value (.res (.ok n))
  | .err e => do
    let s ← (← e.eval declarations waits scope).toStr
    return .value (.res (.err s))
  | .resOr res alternative => do
    match ← (← res.eval declarations waits scope).toAttempt with
    | .ok n => return Datum.ofInt n
    | .err _ => alternative.eval declarations waits scope
  | .list es => do
    let items ← evalInts declarations waits scope es
    Datum.ofItems items
  | .pair a b => do
    let n ← (← a.eval declarations waits scope).toInt
    let s ← (← b.eval declarations waits scope).toStr
    return .pair n s
  | .fst e => do
    let (n, _) ← (← e.eval declarations waits scope).toPair
    return Datum.ofInt n
  | .snd e => do
    let (_, s) ← (← e.eval declarations waits scope).toPair
    return Datum.ofStr s
  | .sum name list e => do
    let items ← (← list.eval declarations waits scope).toItems
    let step (item : Int) : Eval Int := do
      (← e.eval declarations waits ((name, Datum.ofInt item) :: scope)).toInt
    Datum.ofInt <$> sumOver step 0 items
  | .read query keyType valueType key => do
    let k ← (← key.eval declarations waits scope).toKey keyType
    let v ← Eval.ofExcept (← Eval.ask (.read query valueType k))
    return .value v
  | .call label key => do
    let k ← (← key.eval declarations waits scope).toKey (declarations label).keyType
    if waits then callAwaited declarations label k else callImmediate declarations label k
  | .callNow label key => do
    let k ← (← key.eval declarations waits scope).toKey (declarations label).keyType
    callImmediate declarations label k
  | .recover e handled handler =>
    tryCatch (e.eval declarations waits scope) fun error =>
      if handled.any (·.covers error) then
        handler.eval declarations waits (("err", Datum.ofStr error.message) :: scope)
      else throw error
  | .context message e => do
    let text ← (← message.eval declarations waits scope).toStr
    tryCatch (e.eval declarations waits scope) fun error => throw (error.inContext text)
  | .fail message => do
    let text ← (← message.eval declarations waits scope).toStr
    throw (.failed text)
  | .raise code message => do
    let number ← (← code.eval declarations waits scope).toInt
    let text ← (← message.eval declarations waits scope).toStr
    throw (.computationFailed (.coded number text))
  | .parse e => do
    let text ← (← e.eval declarations waits scope).toStr
    match Integer.ofText text with
    | .ok n => return Datum.ofInt n
    | .error reason => throw (.computationFailed (.numeral reason))
  | .parseContext message e => do
    let wider ← (← message.eval declarations waits scope).toStr
    let text ← (← e.eval declarations waits scope).toStr
    match Integer.ofText text with
    | .ok n => return Datum.ofInt n
    | .error reason => throw (.computationFailed (.context wider (.numeral reason)))
  | .cancel => do
    Eval.ask .cancel
    return .unit
  | .check => do
    Eval.ofExcept (← Eval.ask .check)
    return .unit
  | .revision => do
    let r ← Eval.ask .revision
    return Datum.ofInt (Int.ofNat r)
  | .contextText => do
    let slot ← Eval.ask .slot
    let revision ← Eval.ask .revision
    return Datum.ofStr (contextText slot revision)
  | .yield times => do
    let n ← (← times.eval declarations waits scope).toInt
    if waits then
      ExceptT.lift (Computation.yields n.toNat)
      return .unit
    else Eval.failWith "yield in sync code"

/-- Several expressions in order; the datum of the last, or the given one if there is none. -/
def evalSeq (declarations : Declarations) (waits : Bool) (scope : Scope) (last : Datum) :
    List Expr → Eval Datum
  | [] => pure last
  | e :: es => do
    let d ← e.eval declarations waits scope
    evalSeq declarations waits scope d es

/-- Several expressions in order, each of them an integer. -/
def evalInts (declarations : Declarations) (waits : Bool) (scope : Scope) :
    List Expr → Eval (List Int)
  | [] => pure []
  | e :: es => do
    let n ← (← e.eval declarations waits scope).toInt
    let ns ← evalInts declarations waits scope es
    return n :: ns

end

namespace Declaration

/-- The body of a declaration, as a computation for a key. Its result must have the declared
    type. -/
def toBody (declarations : Declarations) (d : Declaration) (key : Key) : Body :=
  ExceptT.run do
    let k ← Datum.ofKey key
    let result ← d.body.eval declarations (d.api != .sync) [("key", k)]
    result.toValue d.valueType

/-- The equality that calls of a query use. -/
def callEquality (d : Declaration) : Equality :=
  match d.api with
  | .typed => d.equality
  | .sync | .async => .content

/-- The query of a declaration. -/
def toQuery (declarations : Declarations) (d : Declaration) : Query where
  id := d.id
  valueType := d.valueType
  equality := d.callEquality.same
  body := d.toBody declarations

end Declaration

/-- The program of a script. -/
def Declarations.program (declarations : Declarations) : Program :=
  fun label => (declarations label).toQuery declarations

end RedGreen.Script
