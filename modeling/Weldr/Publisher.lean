import Mathlib.Algebra.Group.Nat.Defs
import Mathlib.Data.List.AList
import Weldr.TransitionSystems
import Weldr.RequestTargets

/-! The messages between manager and workers (`weldr.capnp`), and the publisher that sends
them: the map of subscribers, the three publish loops and the callbacks of requests in flight.
A callback holds an id only and may run at any later time, in any order, also after its
subscriber is gone. -/
namespace SubscriberProtocol

open RequestTargets

/-- The methods of `interface Subscriber`, each with its `url : Text`. -/
inductive Request where
  | addServer (url : String)
  | markServerDown (url : String)
  | markServerActive (url : String)
  deriving DecidableEq, Repr

inductive Publication (Uri : Type) where
  | newServer (url : Uri)
  | serverStateDown (url : Uri)
  | serverStateActive (url : Uri)
  deriving DecidableEq, Repr

def Publication.request {Uri : Type} (hyper : UriText Uri) : Publication Uri → Request
  | .newServer url => .addServer (hyper.display url)
  | .serverStateDown url => .markServerDown (hyper.display url)
  | .serverStateActive url => .markServerActive (hyper.display url)

end SubscriberProtocol

namespace Publisher

open TransitionSystems RequestTargets SubscriberProtocol

structure SubscriberHandle (Client : Type) where
  client : Client
  requestsInFlight : ℤ
  deriving DecidableEq, Repr

abbrev SubscriberMap (Client : Type) := AList fun _ : ℕ => SubscriberHandle Client

structure Sent (Client : Type) where
  idx : ℕ
  client : Client
  request : Request
  deriving DecidableEq, Repr

/-- `subscriptions` are the `SubscriptionImpl` objects not dropped yet, `spawned` the
futures on the reactor that wait for an answer, `sent` all requests sent so far. -/
structure State (Client : Type) where
  nextId : ℕ := 0
  subscribers : SubscriberMap Client := ∅
  subscriptions : List ℕ := []
  spawned : List (Sent Client) := []
  sent : List (Sent Client) := []

inductive Answer where
  | ok
  | err
  deriving DecidableEq, Repr

namespace State

variable {Client : Type}

/-- `PublisherImpl::subscribe`; without a subscriber in the params `pry!` returns early.
The id is a `u64` that wraps. -/
def subscribe (s : State Client) : Option Client → State Client
  | none => s
  | some client =>
    { s with
      nextId := (s.nextId + 1) % 2 ^ 64
      subscribers := s.subscribers.insert s.nextId { client := client, requestsInFlight := 0 }
      subscriptions := s.subscriptions ++ [s.nextId] }

def publishTo (request : Request) (s : State Client) (idx : ℕ) : State Client :=
  match s.subscribers.lookup idx with
  | none => s
  | some subscriber =>
    if subscriber.requestsInFlight < 5 then
      { s with
        subscribers := s.subscribers.insert idx
          { subscriber with requestsInFlight := subscriber.requestsInFlight + 1 }
        spawned := s.spawned ++ [⟨idx, subscriber.client, request⟩]
        sent := s.sent ++ [⟨idx, subscriber.client, request⟩] }
    else s

/-- A publish loop; `order` is the iteration order of the map. -/
def publish (request : Request) (order : List ℕ) (s : State Client) : State Client :=
  order.foldl (publishTo request) s

section Publish

variable {Uri : Type} (hyper : UriText Uri)

def publishNewServer (url : Uri) (order : List ℕ) (s : State Client) : State Client :=
  publish (.addServer (hyper.display url)) order s

def publishServerStateDown (url : Uri) (order : List ℕ) (s : State Client) : State Client :=
  publish (.markServerDown (hyper.display url)) order s

def publishServerStateActive (url : Uri) (order : List ℕ) (s : State Client) : State Client :=
  publish (.markServerActive (hyper.display url)) order s

def publication (order : List ℕ) (s : State Client) : Publication Uri → State Client
  | .newServer url => publishNewServer hyper url order s
  | .serverStateDown url => publishServerStateDown hyper url order s
  | .serverStateActive url => publishServerStateActive hyper url order s

theorem publication_eq (order : List ℕ) (s : State Client) (p : Publication Uri) :
    publication hyper order s p = publish (p.request hyper) order s := by
  cases p <;> rfl

end Publish

/-- The closure behind a sent request, when its promise resolves. -/
def callback (s : State Client) (idx : ℕ) : Answer → State Client
  | .ok =>
    match s.subscribers.lookup idx with
    | none => s
    | some subscriber =>
      { s with
        subscribers := s.subscribers.insert idx
          { subscriber with requestsInFlight := subscriber.requestsInFlight - 1 } }
  | .err => { s with subscribers := s.subscribers.erase idx }

/-- The `k`-th waiting future resolves; beyond the list there is no such future. -/
def complete (s : State Client) (k : ℕ) (answer : Answer) : State Client :=
  match s.spawned[k]? with
  | none => s
  | some r => callback { s with spawned := s.spawned.eraseIdx k } r.idx answer

def dropSubscription (s : State Client) (id : ℕ) : State Client :=
  if id ∈ s.subscriptions then
    { s with
      subscribers := s.subscribers.erase id
      subscriptions := s.subscriptions.erase id }
  else s

end State

inductive Event (Client Uri : Type) where
  | subscribe (params : Option Client)
  | publish (p : Publication Uri) (order : List ℕ)
  | complete (k : ℕ) (answer : Answer)
  | drop (id : ℕ)

section System

variable {Client Uri : Type}

/-- A publish loop visits every entry of the map once, in any order. -/
def Enabled (s : State Client) : Event Client Uri → Prop
  | .publish _ order => order.Perm s.subscribers.keys
  | _ => True

def next (hyper : UriText Uri) (s : State Client) : Event Client Uri → State Client
  | .subscribe params => s.subscribe params
  | .publish p order => s.publication hyper order p
  | .complete k answer => s.complete k answer
  | .drop id => s.dropSubscription id

instance (s : State Client) : (e : Event Client Uri) → Decidable (Enabled s e)
  | .publish _ order => inferInstanceAs (Decidable (order.Perm s.subscribers.keys))
  | .subscribe _ | .complete _ _ | .drop _ => inferInstanceAs (Decidable True)

def publisherSystem (Client : Type) {Uri : Type} (hyper : UriText Uri) :
    System (State Client) (Event Client Uri) :=
  { Enabled := Enabled, next := next hyper }

instance (hyper : UriText Uri) (s : State Client) (e : Event Client Uri) :
    Decidable ((publisherSystem Client hyper).Enabled s e) :=
  inferInstanceAs (Decidable (Enabled s e))

def initial : State Client := {}

def sentTo (id : ℕ) (s : State Client) : List Request :=
  (s.sent.filter fun r => r.idx = id).map Sent.request

def publishedTo (hyper : UriText Uri) (id : ℕ) (s : State Client) :
    Event Client Uri → List Request
  | .publish p _ => if id ∈ s.subscribers then [p.request hyper] else []
  | _ => []

end System

end Publisher
