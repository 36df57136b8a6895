import Weldr.HealthPhases

/-! When the manager flips a backend: never before its threshold's worth of results in a
row, and by then at the latest, but for a counter that the threshold is not looked at. -/
namespace HealthThresholds

open BackendPool TransitionSystems HealthMonitor HealthPhases StreakCounters

section Results

variable {b : Backend}

theorem resultsOf_append (p q : List (Backend × CheckResult)) :
    resultsOf b (p ++ q) = resultsOf b p ++ resultsOf b q := by simp [resultsOf]

theorem resultsOf_singleton (res : CheckResult) : resultsOf b [(b, res)] = [res.passed] := by
  simp [resultsOf]

theorem resultsOf_split {rs : List (Backend × CheckResult)} {u v : List Bool}
    (h : resultsOf b rs = u ++ v) :
    ∃ p q, rs = p ++ q ∧ resultsOf b p = u ∧ resultsOf b q = v := by
  obtain ⟨x, y, hxy, rfl, rfl⟩ := List.map_eq_append_iff.mp h
  obtain ⟨p, q, rfl, rfl, rfl⟩ := List.filter_eq_append_iff.mp hxy
  exact ⟨p, q, rfl, rfl, rfl⟩

theorem resultsOf_prefix {q rs : List (Backend × CheckResult)} (h : q <+: rs) :
    resultsOf b q <+: resultsOf b rs := (h.filter _).map _

end Results

variable {Uri H : Type} [DecidableEq Uri] [DecidableEq H] {hash : InnerBackend Uri → H}

omit [DecidableEq Uri] [DecidableEq H] in
theorem new_tracked {backends : List Backend} {h : BackendHeap Uri}
    (hdist : ∀ b ∈ backends, ∀ c ∈ backends, b.server h = c.server h → b = c) :
    Tracked backends (Monitor.new h : Monitor Uri H) := by
  constructor
  · simp [Monitor.new]
  · exact hdist

omit [DecidableEq Uri] in
theorem new_waiting (h : BackendHeap Uri) (b : Backend) (st : ServerState) :
    ((phases hash (Monitor.new h) b).count st).getD 0 = 0 := by
  cases st <;> rfl

omit [DecidableEq Uri] in
theorem isActive_phases (hash : InnerBackend Uri → H) (m : Monitor Uri H) (b : Backend) :
    b.isActive m.heap = true ↔ (phases hash m b).state = .active := decide_eq_true_iff

omit [DecidableEq Uri] in
theorem isDown_phases (hash : InnerBackend Uri → H) (m : Monitor Uri H) (b : Backend) :
    b.isDown m.heap = true ↔ (phases hash m b).state = .down := decide_eq_true_iff

section Flips

variable (hinj : Function.Injective hash) (config : HealthCheck) {backends : List Backend}
  {m : Monitor Uri H} (hm : Tracked backends m)

include hinj hm

/-- A result that ends state `st` of a backend closes a streak of that backend's results,
all received in that state. -/
theorem flip_split {b : Backend} (hwait : ∀ st, ((phases hash m b).count st).getD 0 = 0)
    {rs : List (Backend × CheckResult)} (hrs : ∀ r ∈ rs, r.1 ∈ backends) (hb : b ∈ backends)
    {res : CheckResult} {st : ServerState} (ht : 1 ≤ (rules config).threshold st)
    (hst : (phases hash ((monitorSystem hash config backends).run m rs) b).state = st)
    (hflip : (phases hash ((monitorSystem hash config backends).run m (rs ++ [(b, res)])) b).state
      ≠ st) :
    ∃ p q, rs = p ++ q ∧
      resultsOf b (q ++ [(b, res)]) =
        List.replicate ((rules config).threshold st) ((rules config).against st) ∧
      ∀ q', q' <+: q →
        (phases hash ((monitorSystem hash config backends).run m (p ++ q')) b).state = st := by
  have hall : ∀ r ∈ rs ++ [(b, res)], r.1 ∈ backends := by
    intro r hr
    rcases List.mem_append.mp hr with hr | hr
    · exact hrs r hr
    · rw [List.mem_singleton.mp hr]; exact hb
  rw [phases_run hinj config hm hrs] at hst
  rw [phases_run hinj config hm hall, resultsOf_append, resultsOf_singleton] at hflip
  obtain ⟨hv, pre, hpre, hlast⟩ := flip_streak hwait hst hflip
  obtain ⟨p, q, rfl, rfl, hq⟩ := resultsOf_split hpre
  refine ⟨p, q, rfl, ?_, ?_⟩
  · rw [resultsOf_append, resultsOf_singleton, hq, hv, ← List.replicate_succ',
      Nat.sub_add_cancel ht]
  · intro q' hq'
    have hpq : ∀ r ∈ p ++ q', r.1 ∈ backends := by
      intro r hr
      rcases List.mem_append.mp hr with hr | hr
      · exact hrs r (by simp [hr])
      · exact hrs r (by simp [hq'.subset hr])
    rw [phases_run hinj config hm hpq, resultsOf_append]
    exact hlast _ (hq ▸ resultsOf_prefix hq')

end Flips

/-- No premature flip, and no interference. In every run over the results of backends with
pairwise different servers, a result that takes a backend down is the last of `failures`
failures in a row of that backend, all received since it is active; one that brings it back
is the last of `passes` passes in a row, all received since it is down; and the state of a
backend is the one that its own results alone give. -/
theorem flips_follow_streaks (hinj : Function.Injective hash) (config : HealthCheck)
    (hF : 1 ≤ config.failures) (hP : 1 ≤ config.passes) (backends : List Backend)
    (h : BackendHeap Uri)
    (hdist : ∀ b ∈ backends, ∀ c ∈ backends, b.server h = c.server h → b = c)
    (rs : List (Backend × CheckResult)) (hrs : ∀ r ∈ rs, r.1 ∈ backends) (b : Backend)
    (hb : b ∈ backends) (res : CheckResult) :
    let after := (monitorSystem hash config backends).run (Monitor.new h)
    (b.isActive (after rs).heap → b.isDown (after (rs ++ [(b, res)])).heap →
      ∃ p q, rs = p ++ q ∧
        resultsOf b (q ++ [(b, res)]) = List.replicate config.failures false ∧
        ∀ q', q' <+: q → b.isActive (after (p ++ q')).heap) ∧
    (b.isDown (after rs).heap → b.isActive (after (rs ++ [(b, res)])).heap →
      ∃ p q, rs = p ++ q ∧
        resultsOf b (q ++ [(b, res)]) = List.replicate config.passes true ∧
        ∀ q', q' <+: q → b.isDown (after (p ++ q')).heap) ∧
    (b.read (after rs).heap).state =
      (b.read (after (rs.filter fun r => r.1 = b)).heap).state := by
  intro after
  have hm : Tracked backends (Monitor.new h : Monitor Uri H) := new_tracked hdist
  have htF : 1 ≤ (rules config).threshold .active := hF
  have htP : 1 ≤ (rules config).threshold .down := hP
  simp only [isActive_phases hash, isDown_phases hash]
  refine ⟨?_, ?_, ?_⟩
  · intro hst hflip
    exact flip_split hinj config hm (new_waiting h b) hrs hb htF hst
      (by rw [hflip]; decide)
  · intro hst hflip
    exact flip_split hinj config hm (new_waiting h b) hrs hb htP hst
      (by rw [hflip]; decide)
  · have hown : resultsOf b (rs.filter fun r => r.1 = b) = resultsOf b rs := by
      simp [resultsOf]
    have hrun := phases_run hinj config hm hrs b
    have hmine : ∀ r ∈ rs.filter fun r => r.1 = b, r.1 ∈ backends := fun r hr =>
      hrs r (List.mem_of_mem_filter hr)
    have hrun' := phases_run hinj config hm hmine b
    rw [hown, ← hrun] at hrun'
    exact (congrArg Counters.state hrun').symm

def twoBackends : BackendHeap String :=
  { cell := fun r => InnerBackend.new { url := toString r, mapHost := true }, next := 2 }

theorem flips_follow_streaks_twice :
    ∃ p q, [((⟨0⟩ : Backend), CheckResult.error), (⟨1⟩, .response 200)] = p ++ q ∧
      resultsOf ⟨0⟩ (q ++ [(⟨0⟩, .response 404)]) = List.replicate 2 false ∧
      ∀ q', q' <+: q → Backend.isActive ⟨0⟩
        ((monitorSystem id { HealthCheck.default with failures := 2 } [⟨0⟩, ⟨1⟩]).run
          (Monitor.new twoBackends) (p ++ q')).heap :=
  (flips_follow_streaks Function.injective_id { HealthCheck.default with failures := 2 }
    (by decide) (by decide) [⟨0⟩, ⟨1⟩] twoBackends (by decide)
    [(⟨0⟩, .error), (⟨1⟩, .response 200)] (by decide) ⟨0⟩ (by decide) (.response 404)).1
    (by decide) (by decide)

def receivedWhile (b : Backend) (st : ServerState) (m : Monitor Uri H)
    (r : Backend × CheckResult) : List Bool :=
  if r.1 = b ∧ (b.read m.heap).state = st then [r.2.passed] else []

def lastWhile (hash : InnerBackend Uri → H) (config : HealthCheck) (backends : List Backend)
    (h : BackendHeap Uri) (history : List (Backend × CheckResult)) (b : Backend)
    (st : ServerState) : Option Bool :=
  ((monitorSystem hash config backends).observe (receivedWhile b st) (Monitor.new h)
    history).getLast?

theorem observe_receivedWhile (hinj : Function.Injective hash) (config : HealthCheck)
    {backends : List Backend} {m : Monitor Uri H} (hm : Tracked backends m)
    {rs : List (Backend × CheckResult)} (hrs : ∀ r ∈ rs, r.1 ∈ backends) (b : Backend)
    (st : ServerState) :
    (monitorSystem hash config backends).observe (receivedWhile b st) m rs =
      (streakSystem (rules config)).observe (receivedIn st) (phases hash m b)
        (resultsOf b rs) := by
  induction rs generalizing m with
  | nil => rfl
  | cons r rs ih =>
    have hr : r.1 ∈ backends := hrs r (by simp)
    have hn := phases_checkDone hinj config hm hr r.2 b
    have hrest := ih (checkDone_tracked hinj config hm hr r.2) fun a ha => hrs a (by simp [ha])
    rw [hn] at hrest
    rw [System.observe_cons]
    apply (congrArg _ hrest).trans
    by_cases hb : r.1 = b
    · simp [resultsOf, hb, streakSystem, receivedWhile, receivedIn, phases]
    · simp [resultsOf, hb, Ne.symm hb, receivedWhile]

theorem flips_within (hinj : Function.Injective hash) (config : HealthCheck)
    {backends : List Backend} {m : Monitor Uri H} (hm : Tracked backends m) {b : Backend}
    {next : List (Backend × CheckResult)} (hnext : ∀ r ∈ next, r.1 ∈ backends)
    {st : ServerState} (ht : 1 ≤ (rules config).threshold st)
    (hst : (phases hash m b).state = st)
    (hres : resultsOf b next =
      List.replicate ((rules config).threshold st) ((rules config).against st)) :
    (∃ q, q <+: next ∧
        (phases hash ((monitorSystem hash config backends).run m q) b).state ≠ st) ↔
      2 ≤ (rules config).threshold st ∨ (phases hash m b).count st ≠ none := by
  have hother : (rules config).other st ≠ st := by cases st <;> simp [rules]
  rw [← flips_within_iff hst hother ht]
  constructor
  · rintro ⟨q, hq, hflip⟩
    rw [phases_run hinj config hm fun r hr => hnext r (hq.subset hr)] at hflip
    obtain ⟨hlen, hrep⟩ := List.prefix_replicate_iff.mp (hres ▸ resultsOf_prefix (b := b) hq)
    refine ⟨(resultsOf b q).length, hlen, ?_⟩
    rw [← hrep]
    exact hflip
  · rintro ⟨j, hj, hflip⟩
    rw [← Nat.add_sub_cancel' hj, List.replicate_add] at hres
    obtain ⟨q, q', rfl, hq, -⟩ := resultsOf_split hres
    refine ⟨q, List.prefix_append q q', ?_⟩
    rw [phases_run hinj config hm fun r hr => hnext r (by simp [hr]), hq]
    exact hflip

theorem running_lastWhile (hinj : Function.Injective hash) (config : HealthCheck)
    {backends : List Backend} {h : BackendHeap Uri}
    (hm : Tracked backends (Monitor.new h : Monitor Uri H))
    {history : List (Backend × CheckResult)} (hrs : ∀ r ∈ history, r.1 ∈ backends)
    (b : Backend) (st : ServerState) :
    (phases hash ((monitorSystem hash config backends).run (Monitor.new h) history) b).count st
        ≠ none ↔
      match lastWhile hash config backends h history b st with
      | none => st = .down
      | some v => v = (rules config).against st := by
  have hstart : (phases hash (Monitor.new h) b).count st ≠ none ↔ st = .down := by
    have hactive : (phases hash (Monitor.new h) b).count .active = none := rfl
    have hdown : (phases hash (Monitor.new h) b).count .down = some 0 := rfl
    cases st <;> simp [hactive, hdown]
  rw [phases_run hinj config hm hrs, running_iff, lastWhile,
    observe_receivedWhile hinj config hm hrs]
  split <;> simp [*]

/-- When flips are late. Whatever came before, an active backend whose next `failures`
results are failures is taken down within them if and only if `failures` is at least 2 or
the last result it received while active was a failure; a backend that is down and whose
next `passes` results are passes is brought back within them if and only if `passes` is at
least 2 or the last result it received while down, if any, was a pass. -/
theorem flips_in_time_iff (hinj : Function.Injective hash) (config : HealthCheck)
    (hF : 1 ≤ config.failures) (hP : 1 ≤ config.passes) (backends : List Backend)
    (h : BackendHeap Uri)
    (hdist : ∀ b ∈ backends, ∀ c ∈ backends, b.server h = c.server h → b = c)
    (history next : List (Backend × CheckResult)) (hhist : ∀ r ∈ history, r.1 ∈ backends)
    (hnext : ∀ r ∈ next, r.1 ∈ backends) (b : Backend) :
    let T := monitorSystem hash config backends
    let m := T.run (Monitor.new h) history
    (b.isActive m.heap → resultsOf b next = List.replicate config.failures false →
      ((∃ q, q <+: next ∧ b.isDown (T.run m q).heap) ↔
        2 ≤ config.failures ∨
          lastWhile hash config backends h history b .active = some false)) ∧
    (b.isDown m.heap → resultsOf b next = List.replicate config.passes true →
      ((∃ q, q <+: next ∧ b.isActive (T.run m q).heap) ↔
        2 ≤ config.passes ∨
          lastWhile hash config backends h history b .down ≠ some false)) := by
  intro T m
  have hnew : Tracked backends (Monitor.new h : Monitor Uri H) := new_tracked hdist
  have hm : Tracked backends m := run_tracked hinj config hnew hhist
  have hleft : ∀ st st' : ServerState, st' ≠ st ↔ st' = (rules config).other st := by
    intro st st'
    cases st <;> cases st' <;> simp [rules]
  have htF : 1 ≤ (rules config).threshold .active := hF
  have htP : 1 ≤ (rules config).threshold .down := hP
  simp only [isActive_phases hash, isDown_phases hash]
  constructor
  · intro hst hres
    have hflips := flips_within hinj config hm hnext htF hst hres
    simp only [hleft] at hflips
    refine hflips.trans (or_congr Iff.rfl ?_)
    rw [running_lastWhile hinj config hnew hhist]
    split <;> simp [*, rules]
  · intro hst hres
    have hflips := flips_within hinj config hm hnext htP hst hres
    simp only [hleft] at hflips
    refine hflips.trans (or_congr Iff.rfl ?_)
    rw [running_lastWhile hinj config hnew hhist]
    split <;> simp [*, rules]

theorem flips_in_time_twice :
    ∃ q, q <+: [((⟨0⟩ : Backend), CheckResult.error), (⟨1⟩, .error), (⟨0⟩, .error)] ∧
      Backend.isDown ⟨0⟩ ((monitorSystem id { HealthCheck.default with failures := 2 }
        [⟨0⟩, ⟨1⟩]).run (Monitor.new twoBackends) q).heap :=
  ((flips_in_time_iff Function.injective_id { HealthCheck.default with failures := 2 }
    (by decide) (by decide) [⟨0⟩, ⟨1⟩] twoBackends (by decide) []
    [(⟨0⟩, .error), (⟨1⟩, .error), (⟨0⟩, .error)] (by decide) (by decide) ⟨0⟩).1
    (by decide) (by decide)).mpr (by decide)

/-- With a threshold of one failure, the first failed check of a new backend is not enough. -/
theorem first_failure_missed :
    let T := monitorSystem id { HealthCheck.default with failures := 1 } [⟨0⟩]
    Backend.isActive ⟨0⟩ (Monitor.new twoBackends : Monitor String (InnerBackend String)).heap ∧
    resultsOf ⟨0⟩ [(⟨0⟩, .error)] = List.replicate 1 false ∧
    ∀ q ∈ [((⟨0⟩ : Backend), CheckResult.error)].inits,
      ¬ Backend.isDown ⟨0⟩ (T.run (Monitor.new twoBackends) q).heap := by decide

end HealthThresholds
