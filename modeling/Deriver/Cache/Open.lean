import Deriver.Cache.Basic
import Deriver.Files.Name
import Deriver.Number.Duration
import Deriver.Number.Integer
import Deriver.Url

/-!
# Choosing a cache

The settings name a cache by a word. A cache on a server has an address, which is
checked here; no connection is ever made, so an address in order still gives no
cache.
-/

namespace Deriver

/-- Which cache to use, and how. -/
structure CacheSettings where
  backend : Text
  /-- The address of a server. -/
  address : Text := []
  /-- What stands in front of every key. -/
  mark : Text := []
  /-- How long a value is kept if nothing is said. -/
  keep : Int := 0

namespace Cache

/-- The kind of a parameter of a server's address. -/
inductive ParamKind where
  | text
  | number
  | span
  | switch
  deriving DecidableEq, Repr

/-- The parameters of a server's address, in the order in which they are read. -/
def params : List (Text × ParamKind) :=
  [("protocol", .number), ("client_name", .text), ("max_retries", .number),
   ("min_retry_backoff", .span), ("max_retry_backoff", .span), ("dial_timeout", .span),
   ("read_timeout", .span), ("write_timeout", .span), ("pool_fifo", .switch),
   ("pool_size", .number), ("pool_timeout", .span), ("min_idle_conns", .number),
   ("max_idle_conns", .number), ("max_active_conns", .number)]

/-- The parameters that go by an older name, which is read only without the newer. -/
def renamedParams : List (Text × Text) :=
  [("conn_max_idle_time", "idle_timeout"), ("conn_max_lifetime", "max_conn_age")]

/-- What is wrong with the value of a parameter. -/
def checkParam (name : Text) (kind : ParamKind) (value : Text) : Except Text Unit :=
  if value.isEmpty then .ok ()
  else match kind with
    | .text => .ok ()
    | .number => (Integer.parse value).map (fun _ => ()) |>.mapError fun e =>
        Text.concat ["redis: invalid ", name, " number: ", e.message "strconv.Atoi" value]
    | .span =>
        if (Integer.parse value).isOk then .ok ()
        else (Duration.parse value).map (fun _ => ()) |>.mapError fun e =>
          Text.concat ["redis: invalid ", name, " duration: ", e.message value]
    | .switch =>
        if (["true", "1", "false", "0"] : List Text).contains value then .ok ()
        else .error (Text.concat ["redis: invalid ", name,
          " boolean: expected true/false/1/0 or an empty string, got ", value.quoted])

/-- What is wrong with the parameters of an address. -/
def checkParams (given : List (Text × Text)) : Except Text Unit := do
  let value (name : Text) : Text := ((given.reverse.find? (·.1 == name)).map (·.2)).getD []
  let isGiven (name : Text) : Bool := given.any (·.1 == name)
  if !(value "db").isEmpty then
    let _ ← (Integer.parse (value "db")).mapError fun e =>
      "redis: invalid database number: " ++ e.message "strconv.Atoi" (value "db")
  let chosen := renamedParams.map fun (new, old) => if isGiven new then new else old
  let known := params ++ chosen.map fun name => (name, ParamKind.span)
  known.forM fun (name, kind) => checkParam name kind (value name)
  let names : List Text := "db" :: known.map (·.1)
  let rest := Text.sort (Text.distinct ((given.map (·.1)).filter (!names.contains ·)))
  if !rest.isEmpty then throw ("redis: unexpected option: " ++ Text.join ", " rest)

/-- What is wrong with the address of a server. -/
def checkAddress (address : Text) : Except Text Unit := do
  let u ← Url.parse address
  if u.scheme == "redis" || u.scheme == "rediss" then
    match (FileName.parts u.path).filter (!·.isEmpty) with
    | [] => pure ()
    | [db] =>
        if !(Integer.parse db).isOk
          then throw ("redis: invalid database number: " ++ db.quoted)
    | _ => throw ("redis: invalid URL path: " ++ u.path)
  else if u.scheme == "unix" then
    if u.path.trim.isEmpty then throw ("redis: empty unix socket path" : Text)
  else throw ("redis: invalid URL scheme: " ++ u.scheme)
  checkParams u.parameters

def open? (s : CacheSettings) : Except Text Cache :=
  if s.backend.isEmpty || s.backend == "memory" then
    .ok (.memory { mark := s.mark, keep := s.keep })
  else if s.backend == "none" then .ok .none
  else if s.backend == "redis" then
    let failed (e : Text) : Text := "failed to connect to redis cache: " ++ e
    match checkAddress s.address with
    | .error e => .error (failed e)
    | .ok _ => .error (failed "connection refused")
  else .error (Text.concat ["unknown cache backend ", s.backend.quoted,
    " (want memory, redis or none)"])

end Cache

end Deriver
