import Weldr.HealthThresholds

/-! The entries of `health_state`. An entry belongs to a backend in one of its states: a mark
changes the key under the entry, so the next check of the backend does not find what the one
before it wrote. -/
namespace HealthRecords

open BackendPool TransitionSystems RecordedHashMap HealthMonitor HealthPhases HealthThresholds

variable {Uri H : Type} [DecidableEq Uri] [DecidableEq H] (hash : InnerBackend Uri → H)

def found (m : Monitor Uri H) (b : Backend) : Option HealthState :=
  lookup (hash (b.read m.heap)) (fun k => k.read m.heap = b.read m.heap) m.health

def written (config : HealthCheck) (m : Monitor Uri H) (r : Backend × CheckResult) :
    HealthState :=
  (decision config (r.1.read m.heap).state r.2.passed ((found hash m r.1).getD (.passing 0))).1

def writtenFor (config : HealthCheck) (b : Backend) (m : Monitor Uri H)
    (r : Backend × CheckResult) : List HealthState :=
  if r.1 = b then [written hash config m r] else []

def lastWritten (config : HealthCheck) (backends : List Backend) (h : BackendHeap Uri)
    (rs : List (Backend × CheckResult)) (b : Backend) : Option HealthState :=
  ((monitorSystem hash config backends).observe (writtenFor hash config b) (Monitor.new h)
    rs).getLast?

def records (b : Backend) (m : Monitor Uri H) : ℕ := (m.health.map Entry.key).count b

/-- Every backend that was checked has one entry, and every call finds what the call before it
for the same backend wrote. -/
def OneRecord (config : HealthCheck) (backends : List Backend) (h : BackendHeap Uri)
    (rs : List (Backend × CheckResult)) : Prop :=
  let after := (monitorSystem hash config backends).run (Monitor.new h)
  (∀ pre, pre <+: rs → ∀ r ∈ pre, records r.1 (after pre) = 1) ∧
  ∀ pre r post, rs = pre ++ r :: post →
    found hash (after pre) r.1 = lastWritten hash config backends h pre r.1

/-- A result meets its backend in the state in which the run found it. -/
def Unflipped (h : BackendHeap Uri) (m : Monitor Uri H) (r : Backend × CheckResult) : Prop :=
  (r.1.read m.heap).state = (r.1.read h).state

variable {hash} {config : HealthCheck} {backends : List Backend} {m : Monitor Uri H}
  {h : BackendHeap Uri} {rs : List (Backend × CheckResult)}

theorem lastWritten_concat (r : Backend × CheckResult) (b : Backend) :
    lastWritten hash config backends h (rs ++ [r]) b =
      if r.1 = b then
        some (written hash config ((monitorSystem hash config backends).run (Monitor.new h) rs) r)
      else lastWritten hash config backends h rs b := by
  rw [lastWritten, System.observe_append]
  simp only [System.observe_cons, System.observe_nil, List.append_nil, writtenFor]
  split
  · exact List.getLast?_concat
  · rw [List.append_nil]
    rfl

theorem lastWritten_isSome {b : Backend} :
    (lastWritten hash config backends h rs b).isSome ↔ b ∈ rs.map Prod.fst := by
  induction rs using List.reverseRecOn with
  | nil => simp [lastWritten]
  | append_singleton rs r ih =>
    rw [lastWritten_concat]
    by_cases hr : r.1 = b
    · simp [hr]
    · simp only [hr, if_false, ih, List.map_append, List.map_cons, List.map_nil, List.mem_append,
        List.mem_singleton, Ne.symm hr, or_false]

theorem found_eq (hm : Tracked backends m) {b : Backend} (hb : b ∈ backends) :
    found hash m b = entryOf hash m b (b.read m.heap).state :=
  lookup_congr (same_key hm hb)

section Step

variable (hinj : Function.Injective hash) (hm : Tracked backends m) {r : Backend × CheckResult}
  (hr : r.1 ∈ backends)

include hinj hm hr

theorem entryOf_checkDone (c : Backend) (st : ServerState) :
    entryOf hash (checkDone hash config m r.1 r.2).1 c st =
      if c = r.1 ∧ st = (r.1.read m.heap).state then some (written hash config m r)
      else entryOf hash m c st := by
  have hslot : slot hash m r.1 (r.1.read m.heap).state = (found hash m r.1).getD (.passing 0) := by
    rw [found_eq hm hr]
    rfl
  have huse := entryOf_withBackend hinj hm hr
    (decision config (r.1.read m.heap).state r.2.passed) c st
  rw [hslot] at huse
  rw [checkDone_monitor]
  simp only
  split
  · exact (entryOf_mark (m := ⟨m.heap, _⟩)).trans huse
  · exact huse

omit hinj in
theorem keys_checkDone : (checkDone hash config m r.1 r.2).1.health.map Entry.key =
    if (found hash m r.1).isSome then m.health.map Entry.key
    else m.health.map Entry.key ++ [r.1] := by
  have hkeys : (withBackend hash m.heap m.health r.1
        (decision config (r.1.read m.heap).state r.2.passed)).1.map Entry.key =
      if (found hash m r.1).isSome then m.health.map Entry.key
      else m.health.map Entry.key ++ [r.1] := by
    rw [withBackend_eq hm hr, found_eq hm hr]
    exact keys_withEntry m.health
  rw [checkDone_monitor]
  simp only
  split <;> exact hkeys

end Step

/-- As long as every backend stays in the state in which the run found it: its one entry is
that of this state and holds what was written last. -/
structure Settled (hash : InnerBackend Uri → H) (config : HealthCheck) (backends : List Backend)
    (h : BackendHeap Uri) (rs : List (Backend × CheckResult)) (m : Monitor Uri H) : Prop where
  entries : ∀ b ∈ backends, ∀ st, entryOf hash m b st =
    if st = (b.read h).state then lastWritten hash config backends h rs b else none
  count : ∀ b ∈ backends, records b m =
    if (lastWritten hash config backends h rs b).isSome then 1 else 0

theorem settled_concat (hinj : Function.Injective hash) (hm : Tracked backends m)
    (hmrun : m = (monitorSystem hash config backends).run (Monitor.new h) rs)
    (hs : Settled hash config backends h rs m) {r : Backend × CheckResult} (hr : r.1 ∈ backends)
    (hst : Unflipped h m r) :
    found hash m r.1 = lastWritten hash config backends h rs r.1 ∧
      Settled hash config backends h (rs ++ [r]) (checkDone hash config m r.1 r.2).1 := by
  have hst : (r.1.read m.heap).state = (r.1.read h).state := hst
  have hfound : found hash m r.1 = lastWritten hash config backends h rs r.1 := by
    rw [found_eq hm hr, hs.entries _ hr, if_pos hst]
  refine ⟨hfound, ?_, ?_⟩
  · intro b hb st
    rw [entryOf_checkDone hinj hm hr, lastWritten_concat, hs.entries b hb, ← hmrun, hst]
    by_cases hbr : b = r.1
    · subst b
      by_cases hx : st = (r.1.read h).state <;> simp [hx]
    · simp [hbr, Ne.symm hbr]
  · intro b hb
    have hcount := hs.count b hb
    rw [records] at hcount ⊢
    rw [keys_checkDone hm hr, lastWritten_concat, hfound]
    by_cases hbr : r.1 = b
    · subst b
      cases hw : lastWritten hash config backends h rs r.1 with
      | none => simp [hw, hcount]
      | some v => simp [hw, hcount]
    · split <;> simp [hcount, hbr]

theorem settled_run (hinj : Function.Injective hash)
    (hnew : Tracked backends (Monitor.new h : Monitor Uri H)) (hrs : ∀ r ∈ rs, r.1 ∈ backends)
    (hst : (monitorSystem hash config backends).Always (Unflipped h) (Monitor.new h) rs) :
    Settled hash config backends h rs
      ((monitorSystem hash config backends).run (Monitor.new h) rs) := by
  induction rs using List.reverseRecOn with
  | nil =>
    constructor
    · intro b hb st
      simp [entryOf, Monitor.new, lookup, lastWritten]
    · intro b hb
      simp [records, Monitor.new, lastWritten]
  | append_singleton rs r ih =>
    have hrs' : ∀ r ∈ rs, r.1 ∈ backends := fun a ha => hrs a (by simp [ha])
    obtain ⟨hall, hlast, -⟩ := (System.always_append _ _ _ _ _).mp hst
    rw [System.run_append]
    exact (settled_concat hinj (run_tracked hinj config hnew hrs') rfl (ih hrs' hall)
      (hrs r (by simp)) hlast).2

theorem unflipped_of_unchecked (hinj : Function.Injective hash)
    (hnew : Tracked backends (Monitor.new h : Monitor Uri H)) (hrs : ∀ r ∈ rs, r.1 ∈ backends)
    {b : Backend} (hb : b ∉ rs.map Prod.fst) :
    (b.read ((monitorSystem hash config backends).run (Monitor.new h) rs).heap).state =
      (b.read h).state := by
  have hnone : resultsOf b rs = [] := by
    rw [resultsOf, List.map_eq_nil_iff, List.filter_eq_nil_iff]
    intro r hr he
    exact hb (List.mem_map.mpr ⟨r, hr, of_decide_eq_true he⟩)
  have hphases := phases_run hinj config hnew hrs b
  rw [hnone] at hphases
  exact congrArg StreakCounters.Counters.state hphases

/-- A backend in another state has no entry, though it was checked to get there. -/
theorem unflipped_of_found (hinj : Function.Injective hash)
    (hnew : Tracked backends (Monitor.new h : Monitor Uri H)) (hrs : ∀ r ∈ rs, r.1 ∈ backends)
    (hall : (monitorSystem hash config backends).Always (Unflipped h) (Monitor.new h) rs)
    {b : Backend} (hb : b ∈ backends)
    (hfound : found hash ((monitorSystem hash config backends).run (Monitor.new h) rs) b =
      lastWritten hash config backends h rs b) :
    (b.read ((monitorSystem hash config backends).run (Monitor.new h) rs).heap).state =
      (b.read h).state := by
  by_contra hflip
  have hsettled := settled_run hinj hnew hrs hall
  rw [found_eq (run_tracked hinj config hnew hrs) hb, hsettled.entries _ hb, if_neg hflip]
    at hfound
  have hunchecked : b ∉ rs.map Prod.fst := by
    intro hin
    have hsome : (lastWritten hash config backends h rs b).isSome := lastWritten_isSome.mpr hin
    rw [← hfound] at hsome
    cases hsome
  exact hflip (unflipped_of_unchecked hinj hnew hrs hunchecked)

/-- One record per backend, exactly as long as no result comes for a backend that an earlier
result flipped. -/
theorem one_record_iff (hinj : Function.Injective hash) (config : HealthCheck)
    (backends : List Backend) (h : BackendHeap Uri)
    (hdist : ∀ b ∈ backends, ∀ c ∈ backends, b.server h = c.server h → b = c)
    (rs : List (Backend × CheckResult)) (hrs : ∀ r ∈ rs, r.1 ∈ backends) :
    OneRecord hash config backends h rs ↔
      (monitorSystem hash config backends).Always (Unflipped h) (Monitor.new h) rs := by
  have hnew : Tracked backends (Monitor.new h : Monitor Uri H) := new_tracked hdist
  constructor
  · intro hone
    induction rs using List.reverseRecOn with
    | nil => trivial
    | append_singleton rs r ih =>
      have hrs' : ∀ r ∈ rs, r.1 ∈ backends := fun a ha => hrs a (by simp [ha])
      have hr : r.1 ∈ backends := hrs r (by simp)
      have hall : (monitorSystem hash config backends).Always (Unflipped h) (Monitor.new h) rs := by
        refine ih hrs' ⟨fun pre hpre => hone.1 pre (hpre.trans (List.prefix_append _ _)), ?_⟩
        rintro pre a post rfl
        exact hone.2 pre a (post ++ [r]) (by simp)
      refine (System.always_append _ _ _ _ _).mpr ⟨hall, ?_, trivial⟩
      exact unflipped_of_found hinj hnew hrs' hall hr (hone.2 rs r [] rfl)
  · intro hall
    constructor
    · rintro pre ⟨post, rfl⟩ r hr
      have hpre : ∀ r ∈ pre, r.1 ∈ backends := fun a ha => hrs a (by simp [ha])
      have hsettled := settled_run hinj hnew hpre ((System.always_append _ _ _ _ _).mp hall).1
      rw [hsettled.count _ (hpre r hr), if_pos]
      exact lastWritten_isSome.mpr (List.mem_map.mpr ⟨r, hr, rfl⟩)
    · rintro pre r post rfl
      have hpre : ∀ r ∈ pre, r.1 ∈ backends := fun a ha => hrs a (by simp [ha])
      obtain ⟨hbefore, hst, -⟩ := (System.always_append _ _ _ _ _).mp hall
      have hsettled := settled_run hinj hnew hpre hbefore
      exact (settled_concat hinj (run_tracked hinj config hnew hpre) rfl hsettled
        (hrs r (by simp)) hst).1

theorem one_record_active : OneRecord id { HealthCheck.default with failures := 2 } [⟨0⟩, ⟨1⟩]
    twoBackends [(⟨0⟩, .error), (⟨1⟩, .response 200), (⟨0⟩, .response 200)] :=
  (one_record_iff Function.injective_id { HealthCheck.default with failures := 2 } [⟨0⟩, ⟨1⟩]
    twoBackends (by decide) _ (by decide)).mpr ⟨rfl, rfl, rfl, trivial⟩

/-- Two failed checks take a backend down; the next check does not find their entry and makes
a second one. -/
theorem second_record_made :
    let config := { HealthCheck.default with failures := 2 }
    let after := (monitorSystem id config [⟨0⟩]).run (Monitor.new twoBackends)
    let rs := [((⟨0⟩ : Backend), CheckResult.error), (⟨0⟩, .error)]
    found id (after rs) ⟨0⟩ = none ∧
    lastWritten id config [⟨0⟩] twoBackends rs ⟨0⟩ = some (.failing 0) ∧
    records ⟨0⟩ (after (rs ++ [(⟨0⟩, .response 200)])) = 2 ∧
    ¬ OneRecord id config [⟨0⟩] twoBackends (rs ++ [(⟨0⟩, .response 200)]) := by
  refine ⟨by decide, by decide, by decide, ?_⟩
  intro hone
  have hcount := hone.1 _ List.prefix_rfl (⟨0⟩, .response 200) (by simp)
  exact absurd hcount (by decide)

end HealthRecords
