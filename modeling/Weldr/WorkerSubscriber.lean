import Weldr.PoolFairness
import Weldr.Publisher

/-! A worker process: the handlers of `SubscriberImpl` and the requests that `Pool::request`
sends to backends, all on the one pool of the worker. A handler that cannot parse its url
panics, which ends the process. -/
namespace WorkerSubscriber

open BackendPool TransitionSystems RequestTargets SubscriberProtocol PoolFairness

variable {Uri : Type} [DecidableEq Uri]

namespace SubscriberImpl

variable (hyper : UriText Uri) (pool : Pool Uri)

def addServer (url : String) : Option (Pool Uri) :=
  (hyper.fromStr url).map fun url => (pool.add { url := url, mapHost := true }).1

def markServer (mark : Backend → BackendHeap Uri → BackendHeap Uri) (url : String) :
    Option (Pool Uri) :=
  (hyper.fromStr url).map fun url =>
    match pool.find { url := url, mapHost := true } with
    | some backend => pool.write (mark backend)
    | none => pool

def markServerDown (url : String) : Option (Pool Uri) :=
  markServer hyper pool Backend.markDown url

def markServerActive (url : String) : Option (Pool Uri) :=
  markServer hyper pool Backend.markActive url

def handle : Request → Option (Pool Uri)
  | .addServer url => addServer hyper pool url
  | .markServerDown url => markServerDown hyper pool url
  | .markServerActive url => markServerActive hyper pool url

end SubscriberImpl

/-- `inFlight` are the requests given to a backend whose future is not done yet. -/
structure State (Uri : Type) where
  pool : Pool Uri
  inFlight : List Backend := []

inductive Event where
  | message (r : Request)
  | request
  | complete (k : ℕ) (outcome : Outcome)
  deriving DecidableEq, Repr

namespace State

/-- `Pool::request`: an exhausted pool answers at once with an error. -/
def request (w : State Uri) : State Uri :=
  match w.pool.get with
  | none => w
  | some (pool, none) => { w with pool := pool }
  | some (pool, some backend) => { pool := pool, inFlight := w.inFlight ++ [backend] }

def complete (w : State Uri) (k : ℕ) (outcome : Outcome) : State Uri :=
  match w.inFlight[k]? with
  | none => w
  | some backend =>
    { pool := w.pool.requestDone backend outcome, inFlight := w.inFlight.eraseIdx k }

end State

/-- A handler that panics and a `get` that loops for ever are not completed. -/
def Enabled (hyper : UriText Uri) (w : State Uri) : Event → Prop
  | .message r => (SubscriberImpl.handle hyper w.pool r).isSome
  | .request => w.pool.get.isSome
  | .complete _ _ => True

def next (hyper : UriText Uri) (w : State Uri) : Event → State Uri
  | .message r => { w with pool := (SubscriberImpl.handle hyper w.pool r).getD w.pool }
  | .request => w.request
  | .complete k outcome => w.complete k outcome

instance (hyper : UriText Uri) (w : State Uri) : (e : Event) → Decidable (Enabled hyper w e)
  | .message r => inferInstanceAs (Decidable ((SubscriberImpl.handle hyper w.pool r).isSome = true))
  | .request => inferInstanceAs (Decidable (w.pool.get.isSome = true))
  | .complete _ _ => inferInstanceAs (Decidable True)

def workerSystem (hyper : UriText Uri) : System (State Uri) Event :=
  { Enabled := Enabled hyper, next := next hyper }

instance (hyper : UriText Uri) (w : State Uri) (e : Event) :
    Decidable ((workerSystem hyper).Enabled w e) := inferInstanceAs (Decidable (Enabled hyper w e))

def initial (h : BackendHeap Uri) : State Uri := { pool := Pool.default h }

def dispatched (w : State Uri) : Event → List (Server Uri)
  | .request => (PoolOp.selected w.pool .get).map fun b => b.server w.pool.heap
  | _ => []

def doneOp (b : Backend) : Outcome → PoolOp Uri
  | .response status => if Outcome.isServerError status then .incFailure b else .incSuccess b
  | .error => .incFailure b

variable (Uri) in
omit [DecidableEq Uri] in
theorem doneOp_cases (b : Backend) (outcome : Outcome) :
    (doneOp b outcome : PoolOp Uri) = .incFailure b ∨
      (doneOp b outcome : PoolOp Uri) = .incSuccess b := by
  cases outcome with
  | error => exact Or.inl rfl
  | response status =>
    rw [doneOp]
    split
    · exact Or.inl rfl
    · exact Or.inr rfl

theorem requestDone_eq (p : Pool Uri) (b : Backend) (outcome : Outcome) :
    p.requestDone b outcome = PoolOp.next p (doneOp b outcome) := by
  cases outcome with
  | error => rfl
  | response status =>
    simp only [Pool.requestDone, doneOp]
    split <;> rfl

def poolOp (hyper : UriText Uri) (w : State Uri) : Event → Option (PoolOp Uri)
  | .message (.addServer url) =>
    (hyper.fromStr url).map fun url => .add { url := url, mapHost := true }
  | .message (.markServerDown url) =>
    ((hyper.fromStr url).bind fun url => w.pool.find { url := url, mapHost := true }).map
      .markDown
  | .message (.markServerActive url) =>
    ((hyper.fromStr url).bind fun url => w.pool.find { url := url, mapHost := true }).map
      .markActive
  | .request => some .get
  | .complete k outcome => w.inFlight[k]?.map fun b => doneOp b outcome

theorem poolOp_isRemove (hyper : UriText Uri) {w : State Uri} {e : Event} {op : PoolOp Uri}
    (hop : poolOp hyper w e = some op) : op.isRemove = false := by
  cases e with
  | message r =>
    cases r <;>
      · obtain ⟨a, -, rfl⟩ := Option.map_eq_some_iff.mp hop
        rfl
  | request =>
    obtain rfl := Option.some.inj hop
    rfl
  | complete k outcome =>
    obtain ⟨b, -, rfl⟩ := Option.map_eq_some_iff.mp hop
    rcases doneOp_cases Uri b outcome with h | h <;> rw [h] <;> rfl

theorem poolOp_add (hyper : UriText Uri) {w : State Uri} {e : Event} {s : Server Uri}
    (hop : poolOp hyper w e = some (.add s)) :
    ∃ t u, e = .message (.addServer t) ∧ hyper.fromStr t = some u ∧
      s = { url := u, mapHost := true } := by
  cases e with
  | message r =>
    cases r with
    | addServer t =>
      obtain ⟨u, hu, hs⟩ := Option.map_eq_some_iff.mp hop
      exact ⟨t, u, rfl, hu, (PoolOp.add.inj hs).symm⟩
    | markServerDown t | markServerActive t =>
      obtain ⟨b, -, hb⟩ := Option.map_eq_some_iff.mp hop
      cases hb
  | request => cases hop
  | complete k outcome =>
    obtain ⟨b, -, hb⟩ := Option.map_eq_some_iff.mp hop
    rcases doneOp_cases Uri b outcome with h | h <;> cases h.symm.trans hb

theorem poolOp_markActive (hyper : UriText Uri) {w : State Uri} {e : Event} {b : Backend}
    (hop : poolOp hyper w e = some (.markActive b)) :
    ∃ t u, e = .message (.markServerActive t) ∧ hyper.fromStr t = some u ∧
      w.pool.find { url := u, mapHost := true } = some b := by
  cases e with
  | message r =>
    cases r with
    | markServerActive t =>
      obtain ⟨c, hc, hb⟩ := Option.map_eq_some_iff.mp hop
      obtain ⟨u, hu, hf⟩ := Option.bind_eq_some_iff.mp hc
      exact ⟨t, u, rfl, hu, by rw [hf, PoolOp.markActive.inj hb]⟩
    | addServer t | markServerDown t =>
      obtain ⟨b, -, hb⟩ := Option.map_eq_some_iff.mp hop
      cases hb
  | request => cases hop
  | complete k outcome =>
    obtain ⟨c, -, hb⟩ := Option.map_eq_some_iff.mp hop
    rcases doneOp_cases Uri c outcome with h | h <;> cases h.symm.trans hb

theorem markServer_eq (hyper : UriText Uri) (p : Pool Uri)
    (mark : Backend → BackendHeap Uri → BackendHeap Uri) {op : Backend → PoolOp Uri}
    (hop : ∀ b, p.write (mark b) = PoolOp.next p (op b)) (url : String) :
    (SubscriberImpl.markServer hyper p mark url).getD p =
      ((((hyper.fromStr url).bind fun url => p.find { url := url, mapHost := true }).map op).map
        (PoolOp.next p)).getD p := by
  cases hu : hyper.fromStr url with
  | none => simp [SubscriberImpl.markServer, hu]
  | some u =>
    cases hf : p.find { url := u, mapHost := true } with
    | none => simp [SubscriberImpl.markServer, hu, hf]
    | some b => simp [SubscriberImpl.markServer, hu, hf, hop]

/-- Every event of a worker is at most one operation of its pool, and never a `remove`. -/
theorem pool_next (hyper : UriText Uri) (w : State Uri) (e : Event) :
    (next hyper w e).pool = ((poolOp hyper w e).map (PoolOp.next w.pool)).getD w.pool := by
  cases e with
  | message r =>
    cases r with
    | addServer url =>
      simp only [next, SubscriberImpl.handle, SubscriberImpl.addServer, poolOp]
      cases hyper.fromStr url <;> rfl
    | markServerDown url => exact markServer_eq hyper w.pool _ (fun _ => rfl) url
    | markServerActive url => exact markServer_eq hyper w.pool _ (fun _ => rfl) url
  | request =>
    have hget : (State.request w).pool = PoolOp.next w.pool .get := by
      simp only [State.request, PoolOp.next]
      split <;> simp [*]
    exact hget
  | complete k outcome =>
    simp only [next, State.complete, poolOp]
    cases hk : w.inFlight[k]? with
    | none => rfl
    | some b => exact requestDone_eq w.pool b outcome

theorem enabled_publication {hyper : UriText Uri} (hrt : hyper.RoundTrip) (w : State Uri)
    (p : Publication Uri) : Enabled hyper w (.message (p.request hyper)) := by
  cases p with
  | newServer u =>
    simp [Enabled, Publication.request, SubscriberImpl.handle, SubscriberImpl.addServer, hrt u]
  | serverStateDown u =>
    simp [Enabled, Publication.request, SubscriberImpl.handle, SubscriberImpl.markServerDown,
      SubscriberImpl.markServer, hrt u]
  | serverStateActive u =>
    simp [Enabled, Publication.request, SubscriberImpl.handle, SubscriberImpl.markServerActive,
      SubscriberImpl.markServer, hrt u]

theorem pool_invariant (hyper : UriText Uri) {I : Pool Uri → Prop} {w : State Uri} {e : Event}
    (hw : I w.pool) (step : ∀ op, poolOp hyper w e = some op → I (PoolOp.next w.pool op)) :
    I (next hyper w e).pool := by
  rw [pool_next]
  cases hop : poolOp hyper w e with
  | none => exact hw
  | some op => exact step op hop

theorem next_rotating (hyper : UriText Uri) {w : State Uri} (hw : Rotating w.pool) (e : Event) :
    Rotating (next hyper w e).pool :=
  pool_invariant hyper hw fun _ hop => PoolFairness.next_rotating hw (poolOp_isRemove hyper hop)

theorem run_rotating (hyper : UriText Uri) {w : State Uri} (hw : Rotating w.pool)
    (es : List Event) : Rotating ((workerSystem hyper).run w es).pool :=
  System.run_invariant (T := workerSystem hyper) (I := fun w => Rotating w.pool)
    (P := fun _ _ => True) (fun _ e hw _ => next_rotating hyper hw e) hw
    (System.always_of_forall (fun _ _ _ => trivial) w)

end WorkerSubscriber
