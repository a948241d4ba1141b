import Tablescope.Json.Basic

/-!
# Service endpoints

A table service is spoken to in requests, each an operation with a JSON body, and answers with a
status and a text. An endpoint is whatever takes a request and may give a reply. Two endpoints need
no network: one replays replies it was given and keeps the requests, the other cannot be reached.
-/

namespace Tablescope.Service

/-- The operations of the service. -/
inductive Operation where
  | describeTable
  | scan
  | query
  | getItem
  | putItem
  | deleteItem
  | listTables
  deriving DecidableEq, Repr

/-- The name of an operation. -/
def Operation.name : Operation → String
  | describeTable => "DescribeTable"
  | scan => "Scan"
  | query => "Query"
  | getItem => "GetItem"
  | putItem => "PutItem"
  | deleteItem => "DeleteItem"
  | listTables => "ListTables"

/-- One request. -/
structure Request where
  operation : Operation
  /-- The members of the body that are set. -/
  members : List (String × Json)

/-- The body of a request. -/
def Request.body (r : Request) : Json := .object r.members

/-- One reply. -/
structure Reply where
  status : Nat
  body : String

/-- Something that requests can be sent to and that may reply. -/
structure Endpoint (τ : Type) where
  send : Request → τ → Option Reply × τ

/-- The replies that are still to come, and the requests there were. -/
structure Replay where
  replies : List Reply
  requests : List Request

/-- The endpoint that gives one reply to each request, in order, until there are no more. -/
def Endpoint.replay : Endpoint Replay where
  send request r :=
    let requests := r.requests ++ [request]
    match r.replies with
    | [] => (none, { r with requests })
    | reply :: replies => (some reply, { replies, requests })

/-- The endpoint that no request gets to. -/
def Endpoint.unreachable {τ : Type} : Endpoint τ where
  send _ t := (none, t)

end Tablescope.Service
