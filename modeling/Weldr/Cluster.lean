import Weldr.ManagerProcess
import Weldr.WorkerSubscriber

/-! The whole of weldr: the manager with its publisher, the worker processes, and the
requests on their way between them. Workers serve traffic, fall behind and answer late
independently of one another; an `Err` or the drop of a subscription may come at any time.
Between a manager and a worker capnp-rpc is assumed to deliver in order and lose nothing. -/
namespace Cluster

open BackendPool TransitionSystems RequestTargets SubscriberProtocol ManagerProcess

/-- A worker process: `subscription` is what its one `subscribe` call returned, `handled`
the number of requests from the manager that its handlers have run for. -/
structure Node (Uri : Type) where
  worker : WorkerSubscriber.State Uri
  subscription : Option ℕ := none
  handled : ℕ := 0

structure State (W Uri H : Type) where
  manager : ManagerPublisher.Process W Uri H
  node : W → Node Uri

inductive Event (W : Type) where
  | manager (e : ManagerPublisher.Event W)
  | deliver (i : W)
  | request (i : W)
  | complete (i : W) (k : ℕ) (outcome : Outcome)

variable {W Uri H : Type} [DecidableEq W]

def sentFor (i : W) (s : Publisher.State W) : List Request :=
  (s.sent.filter fun r => r.client = i).map Publisher.Sent.request

/-- The requests sent to a worker that it did not handle yet. What capnp-rpc is assumed to do is
in the definition: all of them arrive, each once and in the order of `send()`. -/
def inbox (C : State W Uri H) (i : W) : List Request :=
  (sentFor i C.manager.publisher).drop (C.node i).handled

/-- A worker subscribes once, when it starts. An `Ok` answers a request that was handled:
of a worker's waiting futures, as many have no answer yet as it has requests to handle. -/
def Answerable (C : State W Uri H) : ManagerPublisher.Event W → Prop
  | .subscribe (some i) => (C.node i).subscription = none
  | .complete k .ok => ∀ r ∈ C.manager.publisher.spawned[k]?,
      (inbox C r.client).length <
        C.manager.publisher.spawned.countP fun q => q.client = r.client
  | _ => True

instance (C : State W Uri H) : (e : ManagerPublisher.Event W) → Decidable (Answerable C e)
  | .subscribe (some i) => inferInstanceAs (Decidable ((C.node i).subscription = none))
  | .complete k .ok => inferInstanceAs (Decidable (∀ r ∈ C.manager.publisher.spawned[k]?,
      (inbox C r.client).length <
        C.manager.publisher.spawned.countP fun q => q.client = r.client))
  | .subscribe none | .complete _ .err | .drop _ | .manager _ _ =>
    inferInstanceAs (Decidable True)

def subscribed (C : State W Uri H) : ManagerPublisher.Event W → W → Node Uri
  | .subscribe (some i) => Function.update C.node i
      { C.node i with subscription := some C.manager.publisher.nextId }
  | _ => C.node

variable [DecidableEq Uri] [DecidableEq H]

def workerEvent (C : State W Uri H) : Event W → Option (W × WorkerSubscriber.Event)
  | .manager _ => none
  | .deliver i => (inbox C i).head?.map fun r => (i, .message r)
  | .request i => some (i, .request)
  | .complete i k outcome => some (i, .complete k outcome)

def Node.act (hyper : UriText Uri) (n : Node Uri) (e : WorkerSubscriber.Event) : Node Uri :=
  { n with
    worker := WorkerSubscriber.next hyper n.worker e
    handled := match e with
      | .message _ => n.handled + 1
      | .request | .complete _ _ => n.handled }

def act (hyper : UriText Uri) (C : State W Uri H) (i : W) (e : WorkerSubscriber.Event) :
    State W Uri H :=
  { C with node := Function.update C.node i ((C.node i).act hyper e) }

def Enabled (S : Setting Uri H) (C : State W Uri H) : Event W → Prop
  | .manager e => ManagerPublisher.Enabled S C.manager e ∧ Answerable C e
  | e => ∃ a ∈ workerEvent C e, WorkerSubscriber.Enabled S.hyper (C.node a.1).worker a.2

def next (S : Setting Uri H) (C : State W Uri H) : Event W → State W Uri H
  | .manager e => { manager := ManagerPublisher.next S C.manager e, node := subscribed C e }
  | e => match workerEvent C e with
    | none => C
    | some (i, a) => act S.hyper C i a

instance (S : Setting Uri H) (C : State W Uri H) : (e : Event W) → Decidable (Enabled S C e)
  | .manager e =>
    inferInstanceAs (Decidable (ManagerPublisher.Enabled S C.manager e ∧ Answerable C e))
  | .deliver i => inferInstanceAs (Decidable (∃ a ∈ workerEvent C (.deliver i),
      WorkerSubscriber.Enabled S.hyper (C.node a.1).worker a.2))
  | .request i => inferInstanceAs (Decidable (∃ a ∈ workerEvent C (.request i),
      WorkerSubscriber.Enabled S.hyper (C.node a.1).worker a.2))
  | .complete i k o => inferInstanceAs (Decidable (∃ a ∈ workerEvent C (.complete i k o),
      WorkerSubscriber.Enabled S.hyper (C.node a.1).worker a.2))

variable (W) in
def clusterSystem (S : Setting Uri H) : System (State W Uri H) (Event W) :=
  { Enabled := Enabled S, next := next S }

instance (S : Setting Uri H) (C : State W Uri H) (e : Event W) :
    Decidable ((clusterSystem W S).Enabled C e) := inferInstanceAs (Decidable (Enabled S C e))

def initial (h : BackendHeap Uri) (hw : W → BackendHeap Uri) : State W Uri H :=
  { manager := ManagerPublisher.initial h
    node := fun i => { worker := WorkerSubscriber.initial (hw i) } }

section Parts

variable (S : Setting Uri H)

omit [DecidableEq W] in
theorem keys_publishTo (s : Publisher.State W) (r : Request) (idx : ℕ) :
    (s.publishTo r idx).subscribers.keys.Perm s.subscribers.keys := by
  unfold Publisher.State.publishTo
  cases hl : s.subscribers.lookup idx with
  | none => exact List.Perm.refl _
  | some h =>
    have hin : idx ∈ s.subscribers.keys :=
      AList.mem_keys.mp (AList.lookup_isSome.mp (by simp [hl]))
    by_cases hw : h.requestsInFlight < 5
    · simp only [hw, if_true, AList.keys_insert]
      exact (List.perm_cons_erase hin).symm
    · simp only [hw, if_false]
      exact List.Perm.refl _

omit [DecidableEq W] in
theorem keys_publish (s : Publisher.State W) (r : Request) (order : List ℕ) :
    (s.publish r order).subscribers.keys.Perm s.subscribers.keys := by
  induction order generalizing s with
  | nil => exact List.Perm.refl _
  | cons idx order ih => exact (ih (s.publishTo r idx)).trans (keys_publishTo s r idx)

def publisherEvents (P : ManagerPublisher.Process W Uri H) :
    ManagerPublisher.Event W → List (Publisher.Event W Uri)
  | .manager e order => (published S P.core e).map fun p => .publish p.1 order
  | .subscribe params => [.subscribe params]
  | .complete k answer => [.complete k answer]
  | .drop id => [.drop id]

omit [DecidableEq W] [DecidableEq Uri] [DecidableEq H] in
theorem publish_valid {s : Publisher.State W} {order : List ℕ}
    (ho : order.Perm s.subscribers.keys) (ps : List (Publication Uri × Pool Uri)) :
    (Publisher.publisherSystem W S.hyper).Valid s (ps.map fun p => .publish p.1 order) := by
  induction ps generalizing s with
  | nil => trivial
  | cons p ps ih =>
    refine ⟨ho, ih (ho.trans ?_)⟩
    change s.subscribers.keys.Perm (s.publication S.hyper order p.1).subscribers.keys
    rw [Publisher.State.publication_eq]
    exact (keys_publish s _ order).symm

omit [DecidableEq W] [DecidableEq Uri] [DecidableEq H] in
theorem publish_run (s : Publisher.State W) (order : List ℕ)
    (ps : List (Publication Uri × Pool Uri)) :
    (Publisher.publisherSystem W S.hyper).run s (ps.map fun p => .publish p.1 order) =
      ps.foldl (fun s p => s.publication S.hyper order p.1) s := by
  induction ps generalizing s with
  | nil => rfl
  | cons p ps ih => exact ih (s.publication S.hyper order p.1)

variable (W) in
def publisherPart : Projection (ManagerPublisher.processSystem W S)
    (Publisher.publisherSystem W S.hyper) where
  state P := P.publisher
  events := publisherEvents S
  step P e _ := by
    cases e with
    | manager e order => exact (publish_run S P.publisher order _).symm
    | subscribe | complete | drop => rfl
  enabled P e he := by
    cases e with
    | manager e order => exact publish_valid S he.2 _
    | subscribe | complete | drop => exact ⟨trivial, trivial⟩

variable (W) in
def corePart : Projection (ManagerPublisher.processSystem W S) (coreSystem S) where
  state P := P.core
  events _ e := match e with
    | .manager e _ => [e]
    | .subscribe _ | .complete _ _ | .drop _ => []
  step P e _ := by cases e <;> rfl
  enabled P e he := by
    cases e with
    | manager e order => exact ⟨he.1, trivial⟩
    | subscribe | complete | drop => trivial

def managerEvent : Event W → List (ManagerPublisher.Event W)
  | .manager e => [e]
  | .deliver _ | .request _ | .complete _ _ _ => []

theorem next_worker (C : State W Uri H) {e : Event W} (he : ∀ m, e ≠ .manager m) :
    (next S C e).manager = C.manager ∧
    ∀ i, ((next S C e).node i).worker = match workerEvent C e with
      | some (j, a) => if j = i then WorkerSubscriber.next S.hyper (C.node i).worker a
          else (C.node i).worker
      | none => (C.node i).worker := by
  have hnext : next S C e = match workerEvent C e with
      | none => C
      | some (i, a) => act S.hyper C i a := by
    cases e with
    | manager m => exact absurd rfl (he m)
    | deliver | request | complete => rfl
  rw [hnext]
  cases workerEvent C e with
  | none => exact ⟨rfl, fun _ => rfl⟩
  | some a =>
    refine ⟨rfl, fun i => ?_⟩
    by_cases hi : a.1 = i
    · subst hi
      simp [act, Node.act]
    · simp [act, hi, Function.update_of_ne (Ne.symm hi)]

variable (W) in
def managerPart : Projection (clusterSystem W S) (ManagerPublisher.processSystem W S) where
  state C := C.manager
  events _ := managerEvent
  step C e _ := by
    cases e with
    | manager e => rfl
    | deliver | request | complete => exact (next_worker S C (by simp)).1
  enabled C e he := by
    cases e with
    | manager e => exact ⟨he.1, trivial⟩
    | deliver | request | complete => trivial

omit [DecidableEq Uri] [DecidableEq H] in
theorem worker_subscribed (C : State W Uri H) (e : ManagerPublisher.Event W) (i : W) :
    (subscribed C e i).worker = (C.node i).worker ∧
      (subscribed C e i).handled = (C.node i).handled := by
  unfold subscribed
  split
  · next j =>
    by_cases hi : i = j
    · subst hi; simp
    · simp [Function.update_of_ne hi]
  · exact ⟨rfl, rfl⟩

def eventsOf (i : W) (C : State W Uri H) (e : Event W) : List WorkerSubscriber.Event :=
  match workerEvent C e with
  | some (j, a) => if j = i then [a] else []
  | none => []

variable (W) in
def workerPart (i : W) :
    Projection (clusterSystem W S) (WorkerSubscriber.workerSystem S.hyper) where
  state C := (C.node i).worker
  events := eventsOf i
  step C e _ := by
    by_cases he : ∃ m, e = .manager m
    · obtain ⟨m, rfl⟩ := he
      exact (worker_subscribed C m i).1
    · refine ((next_worker S C (not_exists.mp he)).2 i).trans ?_
      simp only [eventsOf]
      cases workerEvent C e with
      | none => rfl
      | some a =>
        simp only
        split <;> rfl
  enabled C e he := by
    have hown : ∀ a ∈ workerEvent C e,
        WorkerSubscriber.Enabled S.hyper (C.node a.1).worker a.2 := by
      cases e with
      | manager m => simp [workerEvent]
      | deliver | request | complete =>
        obtain ⟨a, ha, hen⟩ := he
        intro b hb
        rwa [Option.mem_unique hb ha]
    simp only [eventsOf]
    cases hw : workerEvent C e with
    | none => trivial
    | some a =>
      by_cases hi : a.1 = i
      · simp only [hi, if_true]
        exact ⟨hi ▸ hown a hw, trivial⟩
      · simp only [hi, if_false]
        trivial

end Parts

end Cluster
