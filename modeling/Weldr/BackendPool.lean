import Mathlib.Algebra.Group.Nat.Defs
import Weldr.TransitionSystems
import Weldr.ImperativeCode

/-! The round-robin pool: servers, their backends and the operations of the pool.
A backend is a counted reference to a cell, so the pool, a request in flight and a health
check that hold clones of it see each other's writes. -/
namespace BackendPool

open ImperativeCode TransitionSystems

structure Server (Uri : Type) where
  url : Uri
  mapHost : Bool
  deriving DecidableEq, Repr

/-- The counters are `usize`: they wrap at the width of a 64-bit target. -/
structure Stats where
  failure : ℕ
  success : ℕ
  deriving DecidableEq, Repr

def Stats.new : Stats := { failure := 0, success := 0 }
def Stats.incSuccess (s : Stats) : Stats := { s with success := (s.success + 1) % 2 ^ 64 }
def Stats.incFailure (s : Stats) : Stats := { s with failure := (s.failure + 1) % 2 ^ 64 }

inductive ServerState where
  | active
  | down
  deriving DecidableEq, Repr

/-- Its derived equality compares the state and the counters as well as the server. -/
structure InnerBackend (Uri : Type) where
  server : Server Uri
  state : ServerState
  stats : Stats
  deriving DecidableEq, Repr

/-- `Rc<RefCell<InnerBackend>>`: the address of the shared cell. -/
structure Backend where
  inner : ℕ
  deriving DecidableEq, Repr

abbrev BackendHeap (Uri : Type) := Heap (InnerBackend Uri)

section Backend

variable {Uri : Type}

def InnerBackend.new (server : Server Uri) : InnerBackend Uri :=
  { server := server, state := .active, stats := Stats.new }

def blankHeap : BackendHeap String :=
  { cell := fun _ => InnerBackend.new { url := "", mapHost := false }, next := 0 }

namespace Backend

def new (h : BackendHeap Uri) (server : Server Uri) : BackendHeap Uri × Backend :=
  ((h.alloc (InnerBackend.new server)).1, ⟨(h.alloc (InnerBackend.new server)).2⟩)

def read (b : Backend) (h : BackendHeap Uri) : InnerBackend Uri := h.cell b.inner

def incSuccess (b : Backend) (h : BackendHeap Uri) : BackendHeap Uri :=
  h.modify b.inner fun i => { i with stats := i.stats.incSuccess }

def incFailure (b : Backend) (h : BackendHeap Uri) : BackendHeap Uri :=
  h.modify b.inner fun i => { i with stats := i.stats.incFailure }

def server (b : Backend) (h : BackendHeap Uri) : Server Uri := (b.read h).server
def isActive (b : Backend) (h : BackendHeap Uri) : Bool := (b.read h).state = .active
def isDown (b : Backend) (h : BackendHeap Uri) : Bool := (b.read h).state = .down

def markActive (b : Backend) (h : BackendHeap Uri) : BackendHeap Uri :=
  h.modify b.inner fun i => { i with state := .active }

def markDown (b : Backend) (h : BackendHeap Uri) : BackendHeap Uri :=
  h.modify b.inner fun i => { i with state := .down }

end Backend

end Backend

structure InnerPool where
  backends : List Backend := []
  lastUsed : ℕ := 0
  deriving DecidableEq, Repr

section InnerPool

variable {Uri : Type} [DecidableEq Uri]

namespace InnerPool

/-- One pass of the `loop` in `InnerPool::get`; the loop state is `self.last_used`. -/
def getBody (h : BackendHeap Uri) (backends : List Backend) (start lastUsed : ℕ) :
    Iteration ℕ (ℕ × Option Backend) :=
  let lastUsed := (lastUsed + 1) % backends.length
  match backends[lastUsed]? with
  | none => .finish (lastUsed, none)
  | some backend =>
    if backend.isDown h then
      if start = lastUsed then .finish (lastUsed, none) else .again lastUsed
    else .finish (lastUsed, some backend)

/-- `InnerPool::get` cut off after `fuel` passes of its loop. -/
def getWithin (h : BackendHeap Uri) (p : InnerPool) (fuel : ℕ) :
    Option (InnerPool × Option Backend) :=
  if p.backends.isEmpty then some (p, none)
  else (runLoop (getBody h p.backends p.lastUsed) fuel p.lastUsed).map
    fun r => ({ p with lastUsed := r.1 }, r.2)

/-- `contains` uses the derived equality, on the contents of both cells. -/
def add (h : BackendHeap Uri) (p : InnerPool) (backend : Backend) : InnerPool × Bool :=
  if p.backends.any (fun b => b.read h = backend.read h) then (p, false)
  else ({ p with backends := p.backends ++ [backend] }, true)

/-- `last_used` is left as it is. -/
def remove (h : BackendHeap Uri) (p : InnerPool) (server : Server Uri) : InnerPool :=
  { p with backends := p.backends.filter fun b => b.server h ≠ server }

def find (h : BackendHeap Uri) (p : InnerPool) (server : Server Uri) : Option Backend :=
  p.backends.find? fun b => b.server h = server

end InnerPool

end InnerPool

/-- All clones of a `Pool` share one `InnerPool`; its cells live in the process heap. -/
structure Pool (Uri : Type) where
  heap : BackendHeap Uri
  inner : InnerPool

inductive Outcome where
  | response (status : ℕ)
  | error
  deriving DecidableEq, Repr

def Outcome.isServerError (status : ℕ) : Bool := 500 ≤ status ∧ status < 600

section Pool

variable {Uri : Type} [DecidableEq Uri]

namespace Pool

def default (h : BackendHeap Uri) : Pool Uri := { heap := h, inner := {} }

def all (p : Pool Uri) : List Backend := p.inner.backends

def add (p : Pool Uri) (server : Server Uri) : Pool Uri × Bool :=
  let (heap, backend) := Backend.new p.heap server
  let (inner, added) := p.inner.add heap backend
  ({ heap := heap, inner := inner }, added)

def remove (p : Pool Uri) (server : Server Uri) : Pool Uri :=
  { p with inner := p.inner.remove p.heap server }

def find (p : Pool Uri) (server : Server Uri) : Option Backend := p.inner.find p.heap server

/-- A `get` that returns does so within one pass per backend (`getWithin_complete`). -/
def get (p : Pool Uri) : Option (Pool Uri × Option Backend) :=
  (p.inner.getWithin p.heap p.inner.backends.length).map
    fun r => ({ p with inner := r.1 }, r.2)

def write (p : Pool Uri) (f : BackendHeap Uri → BackendHeap Uri) : Pool Uri :=
  { p with heap := f p.heap }

/-- The continuation that `Pool::request` puts behind the future of `f`. -/
def requestDone (p : Pool Uri) (backend : Backend) : Outcome → Pool Uri
  | .response status =>
    if Outcome.isServerError status then p.write backend.incFailure
    else p.write backend.incSuccess
  | .error => p.write backend.incFailure

def contents (p : Pool Uri) : List (Backend × InnerBackend Uri) :=
  p.inner.backends.map fun b => (b, b.read p.heap)

def servers (p : Pool Uri) : List (Server Uri) := p.inner.backends.map fun b => b.server p.heap

end Pool

/-- What happens to one pool. Marks and counters are written through clones, which
outlive the backend's place in the pool. -/
inductive PoolOp (Uri : Type) where
  | add (server : Server Uri)
  | remove (server : Server Uri)
  | find (server : Server Uri)
  | get
  | markDown (b : Backend)
  | markActive (b : Backend)
  | incSuccess (b : Backend)
  | incFailure (b : Backend)
  deriving DecidableEq, Repr

namespace PoolOp

/-- A clone refers to a cell that was allocated, and the next operation starts only
after a `get` has returned. -/
def Enabled (p : Pool Uri) : PoolOp Uri → Prop
  | .get => p.get.isSome
  | .markDown b | .markActive b | .incSuccess b | .incFailure b => b.inner < p.heap.next
  | .add _ | .remove _ | .find _ => True

def next (p : Pool Uri) : PoolOp Uri → Pool Uri
  | .add server => (p.add server).1
  | .remove server => p.remove server
  | .find _ => p
  | .get => (p.get.map Prod.fst).getD p
  | .markDown b => p.write b.markDown
  | .markActive b => p.write b.markActive
  | .incSuccess b => p.write b.incSuccess
  | .incFailure b => p.write b.incFailure

instance (p : Pool Uri) : (op : PoolOp Uri) → Decidable (Enabled p op)
  | .get => inferInstanceAs (Decidable (p.get.isSome = true))
  | .markDown b | .markActive b | .incSuccess b | .incFailure b =>
    inferInstanceAs (Decidable (b.inner < p.heap.next))
  | .add _ | .remove _ | .find _ => inferInstanceAs (Decidable True)

def selected (p : Pool Uri) : PoolOp Uri → List Backend
  | .get => (p.get.bind Prod.snd).toList
  | _ => []

def isRemove : PoolOp Uri → Bool
  | .remove _ => true
  | _ => false

end PoolOp

def poolSystem (Uri : Type) [DecidableEq Uri] : System (Pool Uri) (PoolOp Uri) :=
  { Enabled := PoolOp.Enabled, next := PoolOp.next }

instance (p : Pool Uri) (op : PoolOp Uri) : Decidable ((poolSystem Uri).Enabled p op) :=
  inferInstanceAs (Decidable (PoolOp.Enabled p op))

end Pool

end BackendPool
