import Weldr.BackendPool
import Weldr.Publisher

/-! The management API: the routes of `Mgmt` and what a request does to the pool, what it
publishes and what it answers. A handler that panics ends the manager. -/
namespace ManagementApi

open BackendPool RequestTargets SubscriberProtocol

structure Link where
  rel : String
  href : String
  method : Option String
  deriving DecidableEq, Repr

structure PoolServer where
  url : String
  links : Option (List Link)
  deriving DecidableEq, Repr

structure PoolServers where
  servers : List PoolServer
  links : Option (List Link)
  deriving DecidableEq, Repr

structure Index where
  about : String
  links : List Link
  deriving DecidableEq, Repr

/-- `serde_json`, at the types that the API reads and writes; an error is its text. -/
structure SerdeJson where
  fromSlice : List UInt8 → Except String PoolServer
  indexToStringPretty : Index → String
  poolServersToStringPretty : PoolServers → String

inductive StatusCode where
  | ok
  | badRequest
  | notFound
  deriving DecidableEq, Repr

/-- `json` stands for the header `ContentType::json()`. -/
structure Response where
  status : StatusCode := .ok
  contentLength : Option ℕ := none
  json : Bool := false
  body : String := ""
  deriving DecidableEq, Repr

inductive Method where
  | get
  | post
  | delete
  | other (name : String)
  deriving DecidableEq, Repr

structure ApiRequest where
  method : Method
  path : String
  body : List UInt8
  deriving DecidableEq, Repr

section Handlers

variable {Uri : Type} [DecidableEq Uri] (hyper : UriText Uri) (serde : SerdeJson)

def index : Response :=
  let body := serde.indexToStringPretty
    { about := "Weldr Management API"
      links := [{ rel := "servers", href := "/servers", method := none }] }
  { contentLength := some body.utf8ByteSize, json := true, body := body }

def allServersReponse (pool : Pool Uri) : Response :=
  let servers := pool.all.map fun backend =>
    let server := backend.server pool.heap
    let deleteHref := "/servers/" ++ hyper.display server.url
    { url := hyper.asRef server.url
      links := some [{ rel := "delete", href := deleteHref, method := some "DELETE" }] }
  let body := serde.poolServersToStringPretty
    { servers := servers
      links := some [{ rel := "add", href := "/servers", method := some "POST" }] }
  { contentLength := some body.utf8ByteSize, json := true, body := body }

def getServers (pool : Pool Uri) : Response := allServersReponse hyper serde pool

structure Handled (Uri : Type) where
  pool : Pool Uri
  published : Option (Publication Uri)
  response : Response

/-- `add_server` once the body is there. The answer of `add` is not looked at, and the text
of the url is parsed once for the pool and once for the publication. -/
def addServer (pool : Pool Uri) (body : List UInt8) : Option (Handled Uri) :=
  match serde.fromSlice body with
  | .ok server => do
    let backend ← hyper.fromStr server.url
    let pool := (pool.add { url := backend, mapHost := true }).1
    let backend ← hyper.fromStr server.url
    some { pool := pool
           published := some (.newServer backend)
           response := allServersReponse hyper serde pool }
  | .error e =>
    let body := "invalid JSON: " ++ e
    some { pool := pool
           published := none
           response :=
             { status := .badRequest, contentLength := some body.utf8ByteSize, body := body } }

def call (pool : Pool Uri) (req : ApiRequest) : Option (Handled Uri) :=
  match req.method, req.path with
  | .get, "/" => some { pool := pool, published := none, response := index serde }
  | .get, "/servers" =>
    some { pool := pool, published := none, response := getServers hyper serde pool }
  | .post, "/servers" => addServer hyper serde pool req.body
  | .delete, "/servers" =>
    let body := "Remove server"
    some { pool := pool
           published := none
           response := { contentLength := some body.utf8ByteSize, body := body } }
  | _, _ => some { pool := pool, published := none, response := { status := .notFound } }

def posted (req : ApiRequest) : Option Uri :=
  if req.method = .post ∧ req.path = "/servers" then
    match serde.fromSlice req.body with
    | .ok server => hyper.fromStr server.url
    | .error _ => none
  else none

variable {hyper serde}

theorem addServer_eq (pool : Pool Uri) (body : List UInt8) :
    addServer hyper serde pool body =
      match serde.fromSlice body with
      | .ok server => (hyper.fromStr server.url).map fun url =>
        { pool := (pool.add { url := url, mapHost := true }).1
          published := some (.newServer url)
          response := allServersReponse hyper serde (pool.add { url := url, mapHost := true }).1 }
      | .error e => some
        { pool := pool
          published := none
          response :=
            { status := .badRequest, contentLength := some ("invalid JSON: " ++ e).utf8ByteSize
              body := "invalid JSON: " ++ e } } := by
  unfold addServer
  cases serde.fromSlice body with
  | error e => rfl
  | ok server => cases hu : hyper.fromStr server.url <;> simp [hu]

theorem call_post {pool : Pool Uri} {req : ApiRequest}
    (hp : req.method = .post ∧ req.path = "/servers") :
    call hyper serde pool req = addServer hyper serde pool req.body := by
  simp [call, hp.1, hp.2]

/-- A request adds the server that it posts and publishes it, or touches nothing. -/
theorem call_cases {pool : Pool Uri} {req : ApiRequest} {r : Handled Uri}
    (h : call hyper serde pool req = some r) :
    (∃ url, posted hyper serde req = some url ∧ r.published = some (.newServer url) ∧
      r.pool = (pool.add { url := url, mapHost := true }).1) ∨
    (posted hyper serde req = none ∧ r.published = none ∧ r.pool = pool) := by
  by_cases hp : req.method = .post ∧ req.path = "/servers"
  · rw [call_post hp, addServer_eq] at h
    rw [posted, if_pos hp]
    cases hs : serde.fromSlice req.body with
    | error e =>
      simp only [hs, Option.some.injEq] at h
      subst h
      exact Or.inr ⟨rfl, rfl, rfl⟩
    | ok server =>
      simp only [hs] at h
      obtain ⟨url, hu, rfl⟩ := Option.map_eq_some_iff.mp h
      exact Or.inl ⟨url, hu, rfl, rfl⟩
  · refine Or.inr ⟨if_neg hp, ?_⟩
    unfold call at h
    split at h
    · obtain rfl := Option.some.inj h
      exact ⟨rfl, rfl⟩
    · obtain rfl := Option.some.inj h
      exact ⟨rfl, rfl⟩
    · exact absurd ⟨‹_›, ‹_›⟩ hp
    · obtain rfl := Option.some.inj h
      exact ⟨rfl, rfl⟩
    · obtain rfl := Option.some.inj h
      exact ⟨rfl, rfl⟩

theorem posted_of_panic {pool : Pool Uri} {req : ApiRequest}
    (h : call hyper serde pool req = none) : posted hyper serde req = none := by
  by_cases hp : req.method = .post ∧ req.path = "/servers"
  · rw [call_post hp, addServer_eq] at h
    rw [posted, if_pos hp]
    cases hs : serde.fromSlice req.body with
    | error e => rfl
    | ok server =>
      simp only [hs] at h
      exact Option.map_eq_none_iff.mp h
  · exact if_neg hp

end Handlers

end ManagementApi
