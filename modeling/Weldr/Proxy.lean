import Weldr.HttpHeaders
import Weldr.ManagementApi
import Weldr.WorkerSubscriber

/-! The proxy of a worker: what a request becomes on its way to the selected backend, and a
response on its way back. Sockets, the client behind `call` and the log are left out. -/
namespace Proxy

open HttpHeaders RequestTargets BackendPool WorkerSubscriber
open ManagementApi (Method)

structure Via where
  value : String
  deriving DecidableEq, Repr

def Via.append (v other : Via) : Via := { value := v.value ++ (", " ++ other.value) }

/-- The versions that `create_via_header` handles; the last variant of `hyper`'s enumeration is
not to be used, and reaching it panics. -/
inductive HttpVersion where
  | http09
  | http10
  | http11
  | h2
  | h2c
  deriving DecidableEq, Repr

def HttpVersion.viaText : HttpVersion → String
  | .http09 => "0.9"
  | .http10 => "1.0"
  | .http11 => "1.1"
  | .h2 => "2"
  | .h2c => "2"

def createViaHeader (via : Option Via) (version : HttpVersion) : Via :=
  let value : Via := { value := version.viaText ++ " weldr" }
  match via with
  | some v => v.append value
  | none => value

/-- `server::Request`; the body stands for all that its stream yields. -/
structure ServerRequest (Uri Headers : Type) where
  method : Method
  uri : Uri
  version : HttpVersion
  headers : Headers
  body : List UInt8

structure ClientRequest (Uri Headers : Type) where
  method : Method
  uri : Uri
  version : HttpVersion := .http11
  headers : Headers
  body : List UInt8 := []

structure Response (Headers : Type) where
  status : ℕ
  headers : Headers
  body : List UInt8 := []

section Headers

variable {Uri Headers : Type} (lib : HyperHeaders Headers)

/-- The loop over the options of the request's `Connection` header. -/
def removeOptions (options : List ConnectionOption) (h : Headers) : Headers :=
  options.foldl (fun h option =>
    match option with
    | .close => lib.removeRaw h "Close"
    | .keepAlive => lib.removeRaw h "Keep-Alive"
    | .connectionHeader name => lib.removeRaw h name) h

def filterFrontendRequestHeaders (headers : Headers) : Headers :=
  let h := match lib.getConnection headers with
    | some options => removeOptions lib options headers
    | none => headers
  let h := lib.remove h .connection
  let h := lib.remove h .te
  let h := lib.remove h .transferEncoding
  let h := lib.remove h .proxyAuthorization
  let h := lib.remove h .trailer
  lib.remove h .upgrade

/-- The received `Via` is read before the headers are filtered. -/
def mapRequest (req : ServerRequest Uri Headers) : ClientRequest Uri Headers :=
  let via := createViaHeader ((lib.getVia req.headers).map Via.mk) req.version
  let headers := filterFrontendRequestHeaders lib req.headers
  let headers := lib.set headers .via via.value
  { method := req.method
    uri := req.uri
    headers := lib.extend lib.new headers
    body := req.body }

def filterBackendResponseHeaders (headers : Headers) : Headers :=
  let h := lib.remove headers .transferEncoding
  let h := lib.remove h .proxyAuthenticate
  let h := lib.remove h .trailer
  lib.remove h .upgrade

def mapResponse (res : Response Headers) : Response Headers :=
  let headers := filterBackendResponseHeaders lib res.headers
  { status := res.status
    headers := lib.extend lib.new headers
    body := res.body }

end Headers

section Call

variable {Uri Headers : Type} (hyper : HyperUri Uri) (lib : HyperHeaders Headers)

/-- The closure that `Proxy::call` gives to `Pool::request`, up to the request that it hands to
the client: `none` where `expect` or `unwrap` panics. -/
def backendRequest (clientReq : ClientRequest Uri Headers) (server : Server Uri) :
    Option (ClientRequest Uri Headers) := do
  let url := hyper.display server.url ++ hyper.path clientReq.uri ++ "?" ++
    (hyper.query clientReq.uri).getD ""
  let uri ← hyper.fromStr url
  if server.mapHost then
    let headers := lib.remove clientReq.headers .host
    let host ← hyper.host uri
    let port := hyper.port uri
    some { clientReq with
      headers := lib.set headers .host (hyper.displayHost host port)
      uri := uri }
  else some { clientReq with uri := uri }

variable [DecidableEq Uri]

def call (w : State Uri) (req : ServerRequest Uri Headers) :
    List (Option (ClientRequest Uri Headers)) :=
  let clientReq := mapRequest lib req
  (dispatched w .request).map fun server => backendRequest hyper lib clientReq server

end Call

end Proxy
