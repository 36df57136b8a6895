import Weldr.HealthMonitor
import Weldr.ManagementApi

/-! The manager process between the publisher and its callers: the requests of the API, the
health timer and the results of checks, on one pool. Each of them runs to its end before the
next starts; what it publishes is recorded with the pool as it is at that call. -/
namespace ManagerProcess

open BackendPool TransitionSystems RequestTargets SubscriberProtocol HealthMonitor ManagementApi

/-- `pending` are the backends of the checks whose response did not come yet. -/
structure Core (Uri H : Type) where
  pool : Pool Uri
  health : BackendHealth H := []
  pending : List Backend := []

inductive Event where
  | api (req : ApiRequest)
  | timer
  | checked (k : ℕ) (res : CheckResult)
  deriving DecidableEq, Repr

/-- What a step publishes, each time with the pool right after the change. -/
abbrev Log (Uri : Type) := List (Publication Uri × Pool Uri)

/-- The environment of a manager: `hyper`, `serde_json`, the hasher and the configuration. -/
structure Setting (Uri H : Type) where
  hyper : UriText Uri
  serde : SerdeJson
  hash : InnerBackend Uri → H
  config : HealthCheck

section Steps

variable {Uri H : Type} [DecidableEq Uri] [DecidableEq H] (S : Setting Uri H)

/-- One pass of the loop of `health::run`. -/
def checkBackend (c : Core Uri H) (backend : Backend) : Core Uri H × Log Uri :=
  let r := checkStart S.hyper S.config c.pool.heap backend
  let pool := { c.pool with heap := r.1 }
  ({ c with
      pool := pool
      pending := if r.2.1 then c.pending ++ [backend] else c.pending },
    r.2.2.toList.map fun p => (p, pool))

/-- The loop of `health::run` over the backends that `pool.all()` returned. -/
def healthRun (c : Core Uri H) : List Backend → Core Uri H × Log Uri
  | [] => (c, [])
  | backend :: backends =>
    let r := checkBackend S c backend
    let rest := healthRun r.1 backends
    (rest.1, r.2 ++ rest.2)

/-- The `k`-th check in flight is done; beyond the list there is no such check. -/
def checked (c : Core Uri H) (k : ℕ) (res : CheckResult) : Core Uri H × Log Uri :=
  match c.pending[k]? with
  | none => (c, [])
  | some backend =>
    let r := checkDone S.hash S.config { heap := c.pool.heap, health := c.health } backend res
    let pool := { c.pool with heap := r.1.heap }
    ({ pool := pool, health := r.1.health, pending := c.pending.eraseIdx k },
      r.2.toList.map fun p => (p, pool))

def step (c : Core Uri H) : Event → Option (Core Uri H × Log Uri)
  | .api req => (call S.hyper S.serde c.pool req).map fun r =>
    ({ c with pool := r.pool }, r.published.toList.map fun p => (p, r.pool))
  | .timer => some (healthRun S c c.pool.all)
  | .checked k res => some (checked S c k res)

def next (c : Core Uri H) (e : Event) : Core Uri H := ((step S c e).map Prod.fst).getD c

def published (c : Core Uri H) (e : Event) : Log Uri := ((step S c e).map Prod.snd).getD []

def coreSystem : System (Core Uri H) Event :=
  { Enabled := fun c e => (step S c e).isSome, next := next S }

def initial (h : BackendHeap Uri) : Core Uri H := { pool := Pool.default h }

def postedBy : Event → Option Uri
  | .api req => posted S.hyper S.serde req
  | .timer | .checked _ _ => none

end Steps

end ManagerProcess

/-! The whole manager: its own steps, each of which publishes what it changed before it
ends, beside the subscriptions and answers of the workers. -/
namespace ManagerPublisher

open BackendPool TransitionSystems SubscriberProtocol ManagerProcess

structure Process (Client Uri H : Type) where
  core : Core Uri H
  publisher : Publisher.State Client

/-- A step of the manager comes with the iteration order of the subscriber map, which no
publication changes. -/
inductive Event (Client : Type) where
  | manager (e : ManagerProcess.Event) (order : List ℕ)
  | subscribe (params : Option Client)
  | complete (k : ℕ) (answer : Publisher.Answer)
  | drop (id : ℕ)

variable {Client Uri H : Type} [DecidableEq Uri] [DecidableEq H]

def Enabled (S : Setting Uri H) (P : Process Client Uri H) : Event Client → Prop
  | .manager e order => (step S P.core e).isSome ∧ order.Perm P.publisher.subscribers.keys
  | .subscribe _ | .complete _ _ | .drop _ => True

def next (S : Setting Uri H) (P : Process Client Uri H) : Event Client → Process Client Uri H
  | .manager e order =>
    { core := ManagerProcess.next S P.core e
      publisher := (published S P.core e).foldl
        (fun s p => s.publication S.hyper order p.1) P.publisher }
  | .subscribe params => { P with publisher := P.publisher.subscribe params }
  | .complete k answer => { P with publisher := P.publisher.complete k answer }
  | .drop id => { P with publisher := P.publisher.dropSubscription id }

instance (S : Setting Uri H) (P : Process Client Uri H) :
    (e : Event Client) → Decidable (Enabled S P e)
  | .manager e order => inferInstanceAs (Decidable
      ((step S P.core e).isSome = true ∧ order.Perm P.publisher.subscribers.keys))
  | .subscribe _ | .complete _ _ | .drop _ => inferInstanceAs (Decidable True)

def processSystem (Client : Type) (S : Setting Uri H) :
    System (Process Client Uri H) (Event Client) :=
  { Enabled := Enabled S, next := next S }

instance (S : Setting Uri H) (P : Process Client Uri H) (e : Event Client) :
    Decidable ((processSystem Client S).Enabled P e) :=
  inferInstanceAs (Decidable (Enabled S P e))

def initial (h : BackendHeap Uri) : Process Client Uri H :=
  { core := ManagerProcess.initial h, publisher := Publisher.initial }

def publishedIn (S : Setting Uri H) (P : Process Client Uri H) :
    Event Client → List (Publication Uri)
  | .manager e _ => (published S P.core e).map Prod.fst
  | .subscribe _ | .complete _ _ | .drop _ => []

def managerEvents (es : List (Event Client)) : List ManagerProcess.Event :=
  es.filterMap fun e => match e with
    | .manager e _ => some e
    | .subscribe _ | .complete _ _ | .drop _ => none

/-- Subscribers do not act on the manager's pool: a run is a run of the core. -/
theorem core_run (S : Setting Uri H) (P : Process Client Uri H) (es : List (Event Client)) :
    ((processSystem Client S).run P es).core =
      (coreSystem S).run P.core (managerEvents es) := by
  induction es generalizing P with
  | nil => rfl
  | cons e es ih =>
    apply (ih (next S P e)).trans
    cases e <;> rfl

theorem publishedIn_run (S : Setting Uri H) (P : Process Client Uri H)
    (es : List (Event Client)) :
    (processSystem Client S).observe (publishedIn S) P es =
      (coreSystem S).observe (fun c e => (published S c e).map Prod.fst) P.core
        (managerEvents es) := by
  induction es generalizing P with
  | nil => rfl
  | cons e es ih =>
    refine (congrArg (publishedIn S P e ++ ·) (ih (next S P e))).trans ?_
    cases e <;> rfl

theorem always_core {S : Setting Uri H} {Q : Core Uri H → ManagerProcess.Event → Prop}
    {P : Process Client Uri H} {es : List (Event Client)}
    (h : (processSystem Client S).Always (fun P e => match e with
      | .manager e _ => Q P.core e
      | _ => True) P es) : (coreSystem S).Always Q P.core (managerEvents es) := by
  induction es generalizing P with
  | nil => trivial
  | cons e es ih =>
    have hrest := ih h.2
    cases e with
    | manager e order => exact ⟨h.1, hrest⟩
    | subscribe | complete | drop => exact hrest

end ManagerPublisher
