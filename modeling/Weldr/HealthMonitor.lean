import Weldr.BackendPool
import Weldr.RecordedHashMap
import Weldr.Publisher

/-! Active health checks: the decisions of `BackendHealth` and what the manager does with
the result of a check. The map of `BackendHealth` is keyed by backends, whose hash and
equality read the cell as it is at that moment. -/
namespace HealthMonitor

open BackendPool RecordedHashMap RequestTargets SubscriberProtocol

inductive HealthState where
  | passing (consecPasses : ℕ)
  | failing (consecFailures : ℕ)
  deriving DecidableEq, Repr

abbrev BackendHealth (H : Type) := List (Entry H Backend HealthState)

structure HealthCheck where
  uriPath : String
  failures : ℕ
  passes : ℕ
  deriving DecidableEq, Repr

def HealthCheck.default : HealthCheck := { uriPath := "/", failures := 3, passes := 2 }

/-- The rules of `should_mark_active` for the state of one entry. -/
def passedEntry (isActive : Bool) (requiredPasses : ℕ) (state : HealthState) :
    HealthState × Bool :=
  if isActive then
    match state with
    | .failing _ => (.passing 0, false)
    | .passing n => (.passing n, false)
  else
    match state with
    | .passing consecPasses =>
      if consecPasses + 1 ≥ requiredPasses then (.passing 0, true)
      else (.passing (consecPasses + 1), false)
    | .failing _ => (.passing 1, false)

/-- The rules of `should_mark_down` for the state of one entry. -/
def failedEntry (isDown : Bool) (requiredFailures : ℕ) (state : HealthState) :
    HealthState × Bool :=
  if isDown then
    match state with
    | .passing _ => (.failing 0, false)
    | .failing n => (.failing n, false)
  else
    match state with
    | .failing consecFailures =>
      if consecFailures + 1 ≥ requiredFailures then (.failing 0, true)
      else (.failing (consecFailures + 1), false)
    | .passing _ => (.failing 1, false)

section Decisions

variable {Uri H : Type} [DecidableEq Uri] [DecidableEq H] (hash : InnerBackend Uri → H)

/-- `health_state.entry(backend.clone()).or_insert(Passing(0))` and its one update. -/
def withBackend (h : BackendHeap Uri) (health : BackendHealth H) (backend : Backend)
    (f : HealthState → HealthState × Bool) : BackendHealth H × Bool :=
  withEntry (hash (backend.read h)) (fun k => k.read h = backend.read h) backend (.passing 0) f
    health

def shouldMarkActive (h : BackendHeap Uri) (health : BackendHealth H) (backend : Backend)
    (requiredPasses : ℕ) : BackendHealth H × Bool :=
  withBackend hash h health backend (passedEntry (backend.isActive h) requiredPasses)

def shouldMarkDown (h : BackendHeap Uri) (health : BackendHealth H) (backend : Backend)
    (requiredFailures : ℕ) : BackendHealth H × Bool :=
  withBackend hash h health backend (failedEntry (backend.isDown h) requiredFailures)

end Decisions

/-- `Result<client::Response, hyper::Error>` of a check, by status. -/
inductive CheckResult where
  | response (status : ℕ)
  | error
  deriving DecidableEq, Repr

def CheckResult.passed : CheckResult → Bool
  | .response status => 200 ≤ status ∧ status < 300
  | .error => false

structure Monitor (Uri H : Type) where
  heap : BackendHeap Uri
  health : BackendHealth H

def Monitor.new {Uri H : Type} (h : BackendHeap Uri) : Monitor Uri H :=
  { heap := h, health := [] }

section Run

variable {Uri H : Type} [DecidableEq Uri] [DecidableEq H] (hash : InnerBackend Uri → H)

def checkFailed (config : HealthCheck) (m : Monitor Uri H) (backend : Backend) :
    Monitor Uri H × Option (Publication Uri) :=
  let r := shouldMarkDown hash m.heap m.health backend config.failures
  if r.2 then
    let heap := backend.markDown m.heap
    ({ heap := heap, health := r.1 }, some (.serverStateDown (backend.server heap).url))
  else ({ m with health := r.1 }, none)

def checkPassed (config : HealthCheck) (m : Monitor Uri H) (backend : Backend) :
    Monitor Uri H × Option (Publication Uri) :=
  let r := shouldMarkActive hash m.heap m.health backend config.passes
  if r.2 then
    let heap := backend.markActive m.heap
    ({ heap := heap, health := r.1 }, some (.serverStateActive (backend.server heap).url))
  else ({ m with health := r.1 }, none)

/-- The continuation of the check's request in `health::run`. -/
def checkDone (config : HealthCheck) (m : Monitor Uri H) (backend : Backend)
    (res : CheckResult) : Monitor Uri H × Option (Publication Uri) :=
  match res with
  | .response status =>
    if (CheckResult.response status).passed then checkPassed hash config m backend
    else checkFailed hash config m backend
  | .error => checkFailed hash config m backend

theorem checkFailed_cases (config : HealthCheck) (m : Monitor Uri H) (b : Backend) :
    ((checkFailed hash config m b).1.heap = m.heap ∧ (checkFailed hash config m b).2 = none) ∨
    ((checkFailed hash config m b).1.heap = b.markDown m.heap ∧
      (checkFailed hash config m b).2 =
        some (.serverStateDown (b.server (b.markDown m.heap)).url)) := by
  unfold checkFailed
  by_cases hr : (shouldMarkDown hash m.heap m.health b config.failures).2 = true
  · exact Or.inr (by simp [hr])
  · exact Or.inl (by simp [hr])

theorem checkPassed_cases (config : HealthCheck) (m : Monitor Uri H) (b : Backend) :
    ((checkPassed hash config m b).1.heap = m.heap ∧ (checkPassed hash config m b).2 = none) ∨
    ((checkPassed hash config m b).1.heap = b.markActive m.heap ∧
      (checkPassed hash config m b).2 =
        some (.serverStateActive (b.server (b.markActive m.heap)).url)) := by
  unfold checkPassed
  by_cases hr : (shouldMarkActive hash m.heap m.health b config.passes).2 = true
  · exact Or.inr (by simp [hr])
  · exact Or.inl (by simp [hr])

/-- A result leaves the backends alone and publishes nothing, or marks its backend and
publishes that mark. -/
theorem checkDone_cases (config : HealthCheck) (m : Monitor Uri H) (b : Backend)
    (res : CheckResult) :
    ((checkDone hash config m b res).1.heap = m.heap ∧
      (checkDone hash config m b res).2 = none) ∨
    ((checkDone hash config m b res).1.heap = b.markDown m.heap ∧
      (checkDone hash config m b res).2 =
        some (.serverStateDown (b.server (b.markDown m.heap)).url)) ∨
    ((checkDone hash config m b res).1.heap = b.markActive m.heap ∧
      (checkDone hash config m b res).2 =
        some (.serverStateActive (b.server (b.markActive m.heap)).url)) := by
  have hfailed := checkFailed_cases hash config m b
  have hpassed := checkPassed_cases hash config m b
  cases res with
  | error =>
    rcases hfailed with h | h
    · exact Or.inl h
    · exact Or.inr (Or.inl h)
  | response status =>
    simp only [checkDone]
    split
    · rcases hpassed with h | h
      · exact Or.inl h
      · exact Or.inr (Or.inr h)
    · rcases hfailed with h | h
      · exact Or.inl h
      · exact Or.inr (Or.inl h)

/-- The body of the loop of `health::run` for one backend: `true` for a request sent, which
completes later, else the backend is disabled on the spot. -/
def checkStart (hyper : UriText Uri) (config : HealthCheck) (h : BackendHeap Uri)
    (backend : Backend) : BackendHeap Uri × Bool × Option (Publication Uri) :=
  match hyper.fromStr (hyper.display (backend.server h).url ++ config.uriPath) with
  | some _ => (h, true, none)
  | none =>
    if backend.isActive h then
      let heap := backend.markDown h
      (heap, false, some (.serverStateDown (backend.server heap).url))
    else (h, false, none)

end Run

end HealthMonitor
