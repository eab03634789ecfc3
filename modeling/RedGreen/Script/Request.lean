import RedGreen.Request
import RedGreen.Script.Eval

set_option autoImplicit false

/-! # Requests for the queries of a script

A `sync` query is asked for by a blocking request and an `async` one by a waiting request; a `typed`
one can be asked for in both ways. A request that goes past the surface binds a new slot to the
declared equality, whatever the calls of the query use. -/

namespace RedGreen.Script

/-- How a query is asked for, given what the client would like for a `typed` one. -/
def Api.access (api : Api) (wanted : Access) : Access :=
  match api with
  | .sync => .blocking
  | .async => .waiting
  | .typed => wanted

namespace Declarations

/-- Asks for the value of a query through the entry lock. -/
def query (declarations : Declarations) (label : Label) (key : Key) (wanted : Access) : Request :=
  .query ((declarations label).api.access wanted) label key

/-- Asks for the value of a query past the entry lock. -/
def derive (declarations : Declarations) (label : Label) (key : Key) : Request :=
  .derive label key (declarations label).equality.same

/-- Makes the slot of a query. -/
def prepare (declarations : Declarations) (label : Label) (key : Key) : Request :=
  .prepare label key (declarations label).equality.same

end Declarations

end RedGreen.Script
