import RedGreen.Session.Run
import RedGreen.Script.Eval

set_option autoImplicit false

/-! # Independent clients of one system

Some clients share a system. Each of them writes an input of its own, asks for the double of it, and
adds up what it is answered. Nobody reads what another one writes, so the answers do not depend on
the order in which the requests of different clients come; here the clients take turns. -/

namespace RedGreen.Clients

open Script

/-- The one declaration of the program: the double of the client's input. -/
def double : Declaration where
  id := ⟨"double"⟩
  keyType := .int
  body := .arith .multiply (.literal (Datum.ofInt 2)) (.read ⟨"x"⟩ .int .int (.var "key"))

/-- The program of the clients. -/
def program : Program := Declarations.program fun _ => double

/-- The integer in an answer. -/
def amount : Answer → Int
  | .reply (.value (.int n)) => n
  | _ => 0

/-- A client's turn: write, ask, and add the answer. -/
def turn (s : Session) (round client : Nat) : Int × Session :=
  let key := Key.int client
  let (_, s) :=
    s.report program {} (.perform (.write .blocking ⟨"x"⟩ key (.int round)) none)
  let (report, s) := s.report program {} (.perform (.query .blocking "double" key) none)
  (amount report.answer, s)

/-- One turn for each client that has a sum. -/
def roundOf (round : Nat) : Nat → List Int → Session → List Int × Session
  | _, [], s => ([], s)
  | client, sum :: sums, s =>
    let (n, s) := turn s round client
    let (sums, s) := roundOf round (client + 1) sums s
    ((sum + n) :: sums, s)

/-- The given number of rounds, from the first. -/
def rounds (count : Nat) (sums : List Int) (s : Session) : List Int × Session :=
  (List.range count).foldl (fun (sums, s) round => roundOf round 0 sums s) (sums, s)

/-- The sums of the clients and the session after all rounds. -/
def run (clients count : Nat) : List Int × Session :=
  rounds count (List.replicate clients 0) (Session.fresh true true)

end RedGreen.Clients
