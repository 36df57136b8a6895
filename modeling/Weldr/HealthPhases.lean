import Weldr.StreakCounters
import Weldr.PoolSteps
import Weldr.HealthMonitor

/-! The health checks of one backend by themselves. Since a mark changes the key of a
backend, the map holds up to two entries for it, one used while it is active and one while
it is down, and each of them waits unchanged while the other is in use: two counters of one
state. -/
namespace HealthPhases

open BackendPool TransitionSystems RecordedHashMap HealthMonitor PoolSteps StreakCounters

/-- In each state, the threshold for leaving it and the kind of result that counts. -/
def rules (config : HealthCheck) : Rules ServerState :=
  { other := fun st => match st with | .active => .down | .down => .active
    threshold := fun st => match st with | .active => config.failures | .down => config.passes
    against := fun st => match st with | .active => false | .down => true }

def counted : ServerState → HealthState → Option ℕ
  | .active, .failing n => some n
  | .active, .passing _ => none
  | .down, .passing n => some n
  | .down, .failing _ => none

def decision (config : HealthCheck) (st : ServerState) (passed : Bool) :
    HealthState → HealthState × Bool :=
  if passed then passedEntry (st = .active) config.passes
  else failedEntry (st = .down) config.failures

def target (passed : Bool) : ServerState := if passed then .active else .down

/-- The branches of `should_mark_active` and `should_mark_down` are one counter's rule. -/
theorem decision_bump (config : HealthCheck) (st : ServerState) (passed : Bool)
    (v : HealthState) :
    (counted st (decision config st passed v).1, (decision config st passed v).2) =
      bump ((rules config).threshold st) (passed = (rules config).against st)
        (counted st v) := by
  cases st with
  | active =>
    cases passed with
    | true => cases v <;> rfl
    | false =>
      cases v with
      | passing k => rfl
      | failing k =>
        by_cases h : k + 1 ≥ config.failures <;>
          simp [decision, rules, counted, failedEntry, bump, h]
  | down =>
    cases passed with
    | true =>
      cases v with
      | passing k =>
        by_cases h : k + 1 ≥ config.passes <;>
          simp [decision, rules, counted, passedEntry, bump, h]
      | failing k => rfl
    | false => cases v <;> rfl

theorem target_of_flip {config : HealthCheck} {st : ServerState} {passed : Bool}
    {v : HealthState} (h : (decision config st passed v).2 = true) :
    target passed = (rules config).other st := by
  cases st <;> cases passed <;> cases v <;>
    simp [decision, target, rules, passedEntry, failedEntry] at h ⊢

section Projection

variable {Uri H : Type} [DecidableEq Uri] [DecidableEq H] {hash : InnerBackend Uri → H}

/-- The value of the entry, if there is one, that backend `b` uses while it is in state `st`. -/
def entryOf (hash : InnerBackend Uri → H) (m : Monitor Uri H) (b : Backend) (st : ServerState) :
    Option HealthState :=
  lookup (hash { b.read m.heap with state := st }) (fun k => k = b) m.health

def slot (hash : InnerBackend Uri → H) (m : Monitor Uri H) (b : Backend) (st : ServerState) :
    HealthState :=
  (lookup (hash { b.read m.heap with state := st }) (fun k => k = b) m.health).getD (.passing 0)

def phases (hash : InnerBackend Uri → H) (m : Monitor Uri H) (b : Backend) :
    Counters ServerState :=
  { state := (b.read m.heap).state
    count := fun st => counted st (slot hash m b st) }

/-- The backends under check: pairwise different servers, and no entry of another key. -/
structure Tracked (backends : List Backend) (m : Monitor Uri H) : Prop where
  keys : ∀ e ∈ m.health, e.key ∈ backends
  distinct : ∀ b ∈ backends, ∀ c ∈ backends, b.server m.heap = c.server m.heap → b = c

omit [DecidableEq Uri] in
theorem entryOf_mark {m : Monitor Uri H} {b c : Backend} {st st' : ServerState} :
    entryOf hash { m with heap := m.heap.modify b.inner fun i => { i with state := st' } } c st =
      entryOf hash m c st := by
  have hread : { c.read (m.heap.modify b.inner fun i => { i with state := st' }) with
      state := st } = { c.read m.heap with state := st } :=
    m.heap.modify_reading (fun i => { i with state := st }) (f := fun i => { i with state := st' })
      (by intro; rfl) b.inner c.inner
  simp only [entryOf, hread]

omit [DecidableEq Uri] in
theorem slot_mark {m : Monitor Uri H} {b c : Backend} {st st' : ServerState} :
    slot hash { m with heap := m.heap.modify b.inner fun i => { i with state := st' } } c st =
      slot hash m c st := congrArg (fun v => v.getD (.passing 0)) entryOf_mark

omit [DecidableEq Uri] in
theorem phases_mark (m : Monitor Uri H) (b c : Backend) (st : ServerState) :
    phases hash { m with heap := m.heap.modify b.inner fun i => { i with state := st } } c =
      if c = b then { phases hash m b with state := st } else phases hash m c := by
  by_cases hc : c = b
  · subst c
    have hst : (b.read (m.heap.modify b.inner fun i => { i with state := st })).state = st :=
      congrArg InnerBackend.state (m.heap.modify_cell_self _ _)
    simp [phases, slot_mark, hst]
  · simp [phases, slot_mark, hc, read_other hc]

omit [DecidableEq H] in
/-- Keys that are equal as they are now are the same backend. -/
theorem same_key {backends : List Backend} {m : Monitor Uri H} (hm : Tracked backends m)
    {b : Backend} (hb : b ∈ backends) : ∀ e ∈ m.health,
      decide (e.key.read m.heap = b.read m.heap) = decide (e.key = b) := by
  intro e he
  refine decide_eq_decide.mpr ⟨fun h => ?_, fun h => by rw [h]⟩
  exact hm.distinct _ (hm.keys e he) b hb (congrArg InnerBackend.server h)

theorem withBackend_eq {backends : List Backend} {m : Monitor Uri H} (hm : Tracked backends m)
    {b : Backend} (hb : b ∈ backends) (f : HealthState → HealthState × Bool) :
    withBackend hash m.heap m.health b f =
      withEntry (hash (b.read m.heap)) (fun k => k = b) b (.passing 0) f m.health :=
  withEntry_congr (same_key hm hb)

theorem entryOf_withBackend (hinj : Function.Injective hash) {backends : List Backend}
    {m : Monitor Uri H} (hm : Tracked backends m) {b : Backend} (hb : b ∈ backends)
    (f : HealthState → HealthState × Bool) (c : Backend) (st : ServerState) :
    entryOf hash { m with health := (withBackend hash m.heap m.health b f).1 } c st =
      if c = b ∧ st = (b.read m.heap).state then
        some (f (slot hash m b (b.read m.heap).state)).1
      else entryOf hash m c st := by
  rw [withBackend_eq hm hb]
  by_cases hc : c = b ∧ st = (b.read m.heap).state
  · obtain ⟨rfl, rfl⟩ := hc
    rw [if_pos ⟨rfl, rfl⟩, entryOf, lookup_withEntry_self (by simp)]
    rfl
  · rw [if_neg hc, entryOf, lookup_withEntry_other (by simp)]
    · rfl
    · intro k hk hk' hh
      simp only [decide_eq_true_eq] at hk hk'
      subst hk
      subst hk'
      exact hc ⟨rfl, (congrArg InnerBackend.state (hinj hh)).symm⟩

/-- One use of the map for `b`: the decision reads the slot of its present state, and that
slot alone is written. -/
theorem withBackend_slots (hinj : Function.Injective hash) {backends : List Backend}
    {m : Monitor Uri H} (hm : Tracked backends m) {b : Backend} (hb : b ∈ backends)
    (f : HealthState → HealthState × Bool) :
    let r := withBackend hash m.heap m.health b f
    let before := slot hash m b (b.read m.heap).state
    r.2 = (f before).2 ∧
    (∀ e ∈ r.1, e.key ∈ backends) ∧
    ∀ c st, slot hash { m with health := r.1 } c st =
      if c = b ∧ st = (b.read m.heap).state then (f before).1 else slot hash m c st := by
  refine ⟨?_, ?_, ?_⟩
  · rw [withBackend_eq hm hb]
    exact withEntry_result _
  · intro e he
    rw [withBackend_eq hm hb] at he
    rcases mem_keys_withEntry he with h | ⟨d, hd, h⟩
    · rw [h]; exact hb
    · rw [h]; exact hm.keys d hd
  · intro c st
    have hentry := congrArg (fun v => v.getD (.passing 0)) (entryOf_withBackend hinj hm hb f c st)
    apply hentry.trans
    split <;> rfl

theorem phases_withBackend (hinj : Function.Injective hash) {backends : List Backend}
    {m : Monitor Uri H} (hm : Tracked backends m) {b : Backend} (hb : b ∈ backends)
    (f : HealthState → HealthState × Bool) (c : Backend) :
    phases hash { m with health := (withBackend hash m.heap m.health b f).1 } c =
      if c = b then
        { phases hash m b with
          count := Function.update (phases hash m b).count (b.read m.heap).state
            (counted (b.read m.heap).state (f (slot hash m b (b.read m.heap).state)).1) }
      else phases hash m c := by
  obtain ⟨-, -, hslot⟩ := withBackend_slots hinj hm hb f
  by_cases hc : c = b
  · subst c
    simp only [phases, hslot, if_true, true_and]
    congr 1
    funext st
    by_cases hst : st = (b.read m.heap).state <;> simp [hst]
  · simp [phases, hslot, hc]

theorem checkPassed_monitor (config : HealthCheck) (m : Monitor Uri H) (b : Backend) :
    (checkPassed hash config m b).1 =
      let r := shouldMarkActive hash m.heap m.health b config.passes
      if r.2 then { heap := b.markActive m.heap, health := r.1 } else { m with health := r.1 } :=
  apply_ite Prod.fst _ _ _

theorem checkFailed_monitor (config : HealthCheck) (m : Monitor Uri H) (b : Backend) :
    (checkFailed hash config m b).1 =
      let r := shouldMarkDown hash m.heap m.health b config.failures
      if r.2 then { heap := b.markDown m.heap, health := r.1 } else { m with health := r.1 } :=
  apply_ite Prod.fst _ _ _

theorem checkDone_monitor (config : HealthCheck) (m : Monitor Uri H) (b : Backend)
    (res : CheckResult) :
    (checkDone hash config m b res).1 =
      let r := withBackend hash m.heap m.health b
        (decision config (b.read m.heap).state res.passed)
      if r.2 then
        { heap := m.heap.modify b.inner fun i => { i with state := target res.passed }
          health := r.1 }
      else { m with health := r.1 } := by
  cases res with
  | error => exact checkFailed_monitor config m b
  | response status =>
    simp only [checkDone]
    cases hp : (CheckResult.response status).passed with
    | true => exact checkPassed_monitor config m b
    | false => exact checkFailed_monitor config m b

/-- A result for `b` moves the counters of `b` alone, by the rule of their state. -/
theorem phases_checkDone (hinj : Function.Injective hash) (config : HealthCheck)
    {backends : List Backend} {m : Monitor Uri H} (hm : Tracked backends m) {b : Backend}
    (hb : b ∈ backends) (res : CheckResult) (c : Backend) :
    phases hash (checkDone hash config m b res).1 c =
      if c = b then StreakCounters.next (rules config) (phases hash m b) res.passed
      else phases hash m c := by
  let f := decision config (b.read m.heap).state res.passed
  let before := slot hash m b (b.read m.heap).state
  obtain ⟨hresult, -, -⟩ := withBackend_slots hinj hm hb f
  have hwrite := phases_withBackend hinj hm hb f
  obtain ⟨hcount, hflip⟩ :=
    Prod.ext_iff.mp (decision_bump config (b.read m.heap).state res.passed before)
  simp only at hcount hflip
  have hnext : StreakCounters.next (rules config) (phases hash m b) res.passed =
      { state := if (f before).2 then (rules config).other (b.read m.heap).state
          else (b.read m.heap).state
        count := Function.update (phases hash m b).count (b.read m.heap).state
          (counted (b.read m.heap).state (f before).1) } := by
    simp only [f]
    rw [hcount, hflip]
    rfl
  have hdone : (checkDone hash config m b res).1 = _ := checkDone_monitor config m b res
  simp only at hdone
  cases hd : (f before).2 with
  | false =>
    rw [if_neg (by rw [hresult, hd]; simp)] at hdone
    rw [hdone, hnext, hd]
    exact hwrite c
  | true =>
    rw [if_pos (by rw [hresult, hd])] at hdone
    rw [hdone, hnext, hd]
    refine (phases_mark { m with health := (withBackend hash m.heap m.health b f).1 } b c
      (target res.passed)).trans ?_
    rw [hwrite, hwrite, target_of_flip hd]
    by_cases hc : c = b <;> simp [hc, before]

theorem server_checkDone (config : HealthCheck) (m : Monitor Uri H) (b : Backend)
    (res : CheckResult) (c : Backend) :
    c.server (checkDone hash config m b res).1.heap = c.server m.heap := by
  rw [checkDone_monitor]
  simp only
  split
  · exact m.heap.modify_reading InnerBackend.server
      (f := fun i => { i with state := target res.passed }) (by intro; rfl) _ _
  · rfl

theorem checkDone_tracked (hinj : Function.Injective hash) (config : HealthCheck)
    {backends : List Backend} {m : Monitor Uri H} (hm : Tracked backends m) {b : Backend}
    (hb : b ∈ backends) (res : CheckResult) :
    Tracked backends (checkDone hash config m b res).1 := by
  constructor
  · have hkeys := (withBackend_slots hinj hm hb
      (decision config (b.read m.heap).state res.passed)).2.1
    rw [checkDone_monitor]
    simp only
    split <;> exact hkeys
  · intro c hc d hd
    rw [server_checkDone, server_checkDone]
    exact hm.distinct c hc d hd

end Projection

def monitorSystem {Uri H : Type} [DecidableEq Uri] [DecidableEq H] (hash : InnerBackend Uri → H)
    (config : HealthCheck) (backends : List Backend) :
    System (Monitor Uri H) (Backend × CheckResult) :=
  { Enabled := fun _ r => r.1 ∈ backends
    next := fun m r => (checkDone hash config m r.1 r.2).1 }

def resultsOf (b : Backend) (rs : List (Backend × CheckResult)) : List Bool :=
  (rs.filter fun r => r.1 = b).map fun r => r.2.passed

section Runs

variable {Uri H : Type} [DecidableEq Uri] [DecidableEq H] {hash : InnerBackend Uri → H}

theorem run_tracked (hinj : Function.Injective hash) (config : HealthCheck)
    {backends : List Backend} {m : Monitor Uri H} (hm : Tracked backends m)
    {rs : List (Backend × CheckResult)} (hrs : ∀ r ∈ rs, r.1 ∈ backends) :
    Tracked backends ((monitorSystem hash config backends).run m rs) :=
  System.run_invariant (T := monitorSystem hash config backends) (I := Tracked backends)
    (fun _ r hm hr => checkDone_tracked hinj config hm hr r.2) hm
    (System.always_of_forall (fun r hr _ => hrs r hr) m)

/-- Over a run, the phases of a backend are a function of its own results. -/
theorem phases_run (hinj : Function.Injective hash) (config : HealthCheck)
    {backends : List Backend} {m : Monitor Uri H} (hm : Tracked backends m)
    {rs : List (Backend × CheckResult)} (hrs : ∀ r ∈ rs, r.1 ∈ backends) (b : Backend) :
    phases hash ((monitorSystem hash config backends).run m rs) b =
      (streakSystem (rules config)).run (phases hash m b) (resultsOf b rs) := by
  induction rs generalizing m with
  | nil => rfl
  | cons r rs ih =>
    have hr : r.1 ∈ backends := hrs r (by simp)
    have hn := phases_checkDone hinj config hm hr r.2 b
    have hrest := ih (checkDone_tracked hinj config hm hr r.2) fun a ha => hrs a (by simp [ha])
    apply hrest.trans
    rw [hn]
    by_cases hb : r.1 = b
    · simp [resultsOf, hb, streakSystem]
    · simp [resultsOf, hb, Ne.symm hb]

end Runs

end HealthPhases
