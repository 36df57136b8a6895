import Weldr.HealthThresholds
import Weldr.PublicationStory

/-! The manager's steps as the checks of one server see them. Other servers, posts and timers
do not touch its counters, so that its own check results say all that is published about it. -/
namespace CheckedPublications

open BackendPool TransitionSystems PoolSteps PoolServerSet SubscriberProtocol PoolView
  RecordedHashMap HealthMonitor HealthPhases StreakCounters ManagementApi ManagerProcess
  ManagerRecords ReplicaAgreement PublicationStory

variable {Uri H : Type}

def fresh : Counters ServerState :=
  { state := .active, count := fun st => counted st (.passing 0) }

def monitor (c : Core Uri H) : Monitor Uri H := { heap := c.pool.heap, health := c.health }

variable [DecidableEq Uri]

def resultsOn (url : Uri) (c : Core Uri H) : Event → List Bool
  | .checked k res =>
    match c.pending[k]? with
    | some backend =>
      if backend.server c.pool.heap = serverOf url then [res.passed] else []
    | none => []
  | .api _ | .timer => []

def turns (config : HealthCheck) (url : Uri) (k : Counters ServerState) (v : Bool) :
    List (Publication Uri) :=
  match k.state, (StreakCounters.next (rules config) k v).state with
  | .active, .down => [.serverStateDown url]
  | .down, .active => [.serverStateActive url]
  | .active, .active | .down, .down => []

def toldOf [DecidableEq H] (S : Setting Uri H) (url : Uri) (c : Core Uri H) (e : Event) :
    List (Publication Uri) :=
  eventsAt urlOf url ((published S c e).map Prod.fst)

def Checkable (S : Setting Uri H) (url : Uri) : Prop :=
  ∃ target, S.hyper.fromStr (S.hyper.display url ++ S.config.uriPath) = some target

variable [DecidableEq H]

/-- The checks of one server in the middle of a run: `k` are the state and the counters of its
backend, and are as new as long as there is none. -/
structure Runs (S : Setting Uri H) (url : Uri) (k : Counters ServerState) (c : Core Uri H) :
    Prop where
  managed : Managed c
  keys : ∀ e ∈ c.health, e.key ∈ c.pool.inner.backends
  pooled : ∀ b ∈ c.pool.inner.backends, b.server c.pool.heap = serverOf url →
    phases S.hash (monitor c) b = k
  absent : serverOf url ∉ c.pool.servers → k = fresh

variable {S : Setting Uri H} {url : Uri} {k : Counters ServerState} {c d : Core Uri H}

omit [DecidableEq Uri] in
theorem initial_runs (h : BackendHeap Uri) : Runs S url fresh (initial h : Core Uri H) := by
  refine ⟨initial_managed h, ?_, ?_, fun _ => rfl⟩
  · intro e he; cases he
  · intro b hb; cases hb

omit [DecidableEq Uri] [DecidableEq H] in
theorem server_inj (hc : Managed c) {a b : Backend} (ha : a ∈ c.pool.inner.backends)
    (hb : b ∈ c.pool.inner.backends) (h : a.server c.pool.heap = b.server c.pool.heap) : a = b :=
  List.inj_on_of_nodup_map hc.distinct.servers ha hb h

omit [DecidableEq Uri] [DecidableEq H] in
theorem tracked (hc : Managed c) (hkeys : ∀ e ∈ c.health, e.key ∈ c.pool.inner.backends) :
    Tracked c.pool.inner.backends (monitor c) :=
  ⟨hkeys, fun _ ha _ hb => server_inj hc ha hb⟩

omit [DecidableEq Uri] in
theorem phases_congr {hash : InnerBackend Uri → H} {m n : Monitor Uri H} {b : Backend}
    (hread : b.read m.heap = b.read n.heap) (hhealth : m.health = n.health) :
    phases hash m b = phases hash n b := by
  simp only [phases, slot, hread, hhealth]

omit [DecidableEq Uri] in
theorem Runs.keep (hk : Runs S url k c) (hd : Managed d)
    (hbackends : d.pool.inner.backends = c.pool.inner.backends) (hhealth : d.health = c.health)
    (hserver : ∀ b : Backend, b.server d.pool.heap = b.server c.pool.heap)
    (hread : ∀ b ∈ c.pool.inner.backends, b.server c.pool.heap = serverOf url →
      b.read d.pool.heap = b.read c.pool.heap) : Runs S url k d := by
  refine ⟨hd, ?_, ?_, ?_⟩
  · intro e he
    rw [hbackends]
    exact hk.keys e (hhealth ▸ he)
  · intro b hb hs
    rw [hbackends] at hb
    rw [hserver] at hs
    rw [← hk.pooled b hb hs]
    exact phases_congr (hread b hb hs) hhealth
  · intro habsent
    refine hk.absent ?_
    simp only [Pool.servers, hbackends, hserver] at habsent
    exact habsent

omit [DecidableEq H] in
theorem eventsAt_other {b : Backend} (hc : Managed c) (hb : b ∈ c.pool.inner.backends)
    (hs : b.server c.pool.heap ≠ serverOf url) {p : Publication Uri}
    (hp : urlOf p = (b.server c.pool.heap).url) : eventsAt urlOf url [p] = [] := by
  have hurl : urlOf p ≠ url := by
    rintro rfl
    exact hs ((serverOf_pooled hc hb).symm.trans (by rw [hp]))
  simp [eventsAt, hurl]

theorem checkBackend_runs (hparse : Checkable S url) (hk : Runs S url k c) {b : Backend}
    (hb : b ∈ c.pool.inner.backends) :
    Runs S url k (checkBackend S c b).1 ∧
      eventsAt urlOf url ((checkBackend S c b).2.map Prod.fst) = [] := by
  have hmanaged := (checkBackend_recorded S hk.managed hb).managed
  revert hmanaged
  unfold checkBackend checkStart
  cases hu : S.hyper.fromStr
      (S.hyper.display (b.server c.pool.heap).url ++ S.config.uriPath) with
  | some target => exact fun hd => ⟨hk.keep hd rfl rfl (fun _ => rfl) fun _ _ _ => rfl, rfl⟩
  | none =>
    by_cases ha : b.isActive c.pool.heap = true
    · simp only [ha, if_true]
      intro hd
      have hother : b.server c.pool.heap ≠ serverOf url := by
        intro hs
        obtain ⟨target, ht⟩ := hparse
        rw [hs] at hu
        cases ht.symm.trans hu
      refine ⟨hk.keep hd rfl rfl (fun a => server_markDown b a _) ?_, ?_⟩
      · intro a _ hs
        have hne : a ≠ b := by rintro rfl; exact hother hs
        have hread : a.read (b.markDown c.pool.heap) = a.read c.pool.heap := read_other hne
        exact hread
      · exact eventsAt_other hk.managed hb hother (by rw [server_markDown]; rfl)
    · simp only [ha]
      exact fun hd => ⟨hk.keep hd rfl rfl (fun _ => rfl) fun _ _ _ => rfl, rfl⟩

theorem healthRun_runs (hparse : Checkable S url) (hk : Runs S url k c) {bs : List Backend}
    (hbs : ∀ b ∈ bs, b ∈ c.pool.inner.backends) :
    Runs S url k (healthRun S c bs).1 ∧
      eventsAt urlOf url ((healthRun S c bs).2.map Prod.fst) = [] := by
  induction bs generalizing c with
  | nil => exact ⟨hk, rfl⟩
  | cons b bs ih =>
    obtain ⟨hone, htold⟩ := checkBackend_runs hparse hk (hbs b (by simp))
    have hgrow := (checkBackend_recorded S hk.managed (hbs b (by simp))).backends
    obtain ⟨hrest, htold'⟩ := ih hone fun a ha => hgrow.subset (hbs a (by simp [ha]))
    refine ⟨hrest, ?_⟩
    simp only [healthRun, List.map_append, eventsAt_append, htold, htold', List.append_nil]

theorem post_runs (hk : Runs S url k c) {u : Uri} (hu : serverOf u ∉ c.pool.servers)
    (hd : Managed d) (hpool : d.pool = PoolOp.next c.pool (.add (serverOf u)))
    (hhealth : d.health = c.health) : Runs S url k d := by
  have hwf := hk.managed.distinct.wellFormed
  have hadd : d.pool = { heap := (c.pool.heap.alloc (InnerBackend.new (serverOf u))).1
                         inner := { c.pool.inner with
                           backends := c.pool.inner.backends ++ [⟨c.pool.heap.next⟩] } } := by
    rw [hpool, PoolOp.next, add_missing hwf]
    rintro ⟨b, hb, hread⟩
    exact hu (mem_servers.mpr ⟨b, hb, congrArg InnerBackend.server hread⟩)
  have hbackends : d.pool.inner.backends = c.pool.inner.backends ++ [⟨c.pool.heap.next⟩] := by
    rw [hadd]
  have hold : ∀ b ∈ c.pool.inner.backends, b.read d.pool.heap = b.read c.pool.heap := by
    intro b hb
    rw [hadd]
    exact read_alloc (hwf.allocated b hb) _
  have hnew : Backend.read ⟨c.pool.heap.next⟩ d.pool.heap = InnerBackend.new (serverOf u) := by
    rw [hadd]
    exact read_new c.pool.heap (serverOf u)
  refine ⟨hd, ?_, ?_, ?_⟩
  · intro e he
    rw [hbackends]
    exact List.mem_append_left _ (hk.keys e (hhealth ▸ he))
  · intro b hb hs
    rw [hbackends, List.mem_append, List.mem_singleton] at hb
    rcases hb with hb | rfl
    · have hserver : b.server d.pool.heap = b.server c.pool.heap :=
        congrArg InnerBackend.server (hold b hb)
      rw [← hk.pooled b hb (hserver.symm.trans hs)]
      exact phases_congr (hold b hb) hhealth
    · -- the new backend is as new, for no record has its key
      have hserver : serverOf u = serverOf url := by
        rw [← hs, Backend.server, hnew]
        rfl
      rw [hk.absent (hserver ▸ hu)]
      have hnone : ∀ st, entryOf S.hash (monitor d) ⟨c.pool.heap.next⟩ st = none := by
        intro st
        apply lookup_of_notMem
        intro e he hkey
        have hin := hk.keys e (hhealth ▸ he)
        rw [of_decide_eq_true hkey] at hin
        exact absurd (hwf.allocated _ hin) (Nat.lt_irrefl _)
      have hslot : ∀ st, slot S.hash (monitor d) ⟨c.pool.heap.next⟩ st = .passing 0 := fun st =>
        congrArg (fun v => v.getD (.passing 0)) (hnone st)
      have hstate : (Backend.read ⟨c.pool.heap.next⟩ (monitor d).heap).state = .active :=
        congrArg InnerBackend.state hnew
      simp only [phases, hslot, hstate, fresh]
  · intro habsent
    refine hk.absent fun hin => habsent ?_
    obtain ⟨b, hb, hs⟩ := mem_servers.mp hin
    refine mem_servers.mpr ⟨b, hbackends ▸ List.mem_append_left _ hb, ?_⟩
    rw [Backend.server, hold b hb]
    exact hs

theorem told_checkDone (hinj : Function.Injective S.hash) (hk : Runs S url k c) {b : Backend}
    (hb : b ∈ c.pool.inner.backends) (hs : b.server c.pool.heap = serverOf url)
    (res : CheckResult) :
    (checkDone S.hash S.config (monitor c) b res).2.toList = turns S.config url k res.passed := by
  have hphases := phases_checkDone hinj S.config (tracked hk.managed hk.keys) hb res b
  rw [if_pos rfl, hk.pooled b hb hs] at hphases
  have hafter : (StreakCounters.next (rules S.config) k res.passed).state =
      (b.read (checkDone S.hash S.config (monitor c) b res).1.heap).state :=
    (congrArg Counters.state hphases).symm
  have hbefore : k.state = (b.read c.pool.heap).state := by
    rw [← hk.pooled b hb hs]
    rfl
  have hurl : (b.server (monitor c).heap).url = url := congrArg Server.url hs
  rw [turns, hafter, hbefore]
  rcases checkDone_cases S.hash S.config (monitor c) b res with
    ⟨hheap, hp⟩ | ⟨hheap, hp⟩ | ⟨hheap, hp⟩
  · rw [hheap, hp]
    cases hst : (b.read c.pool.heap).state <;> simp [monitor, hst]
  · have hst : (b.read c.pool.heap).state = .active := by
      obtain ⟨st, hne, he⟩ := checkDone_published hp
      cases st with
      | active => cases he
      | down => exact state_eq_of_ne hne (by decide)
    rw [hheap, hp, server_markDown, hurl, hst, read_markDown]
    rfl
  · have hst : (b.read c.pool.heap).state = .down := by
      obtain ⟨st, hne, he⟩ := checkDone_published hp
      cases st with
      | active => exact state_eq_of_ne hne (by decide)
      | down => cases he
    rw [hheap, hp, server_markActive, hurl, hst, read_markActive]
    rfl

omit [DecidableEq Uri] [DecidableEq H] in
theorem urlOf_turns {config : HealthCheck} {v : Bool} :
    ∀ p ∈ turns config url k v, urlOf p = url := by
  intro p hp
  rw [turns] at hp
  split at hp
  · rw [List.mem_singleton.mp hp]; rfl
  · rw [List.mem_singleton.mp hp]; rfl
  · cases hp
  · cases hp

theorem log_checked {j : ℕ} {b : Backend} (hj : c.pending[j]? = some b) (res : CheckResult) :
    (checked S c j res).2.map Prod.fst =
      (checkDone S.hash S.config (monitor c) b res).2.toList := by
  simp only [checked, hj, monitor, List.map_map]
  exact List.map_id' _

theorem told_other (hc : Managed c) {b : Backend} (hb : b ∈ c.pool.inner.backends)
    (hs : b.server c.pool.heap ≠ serverOf url) {j : ℕ} (hj : c.pending[j]? = some b)
    (res : CheckResult) : eventsAt urlOf url ((checked S c j res).2.map Prod.fst) = [] := by
  rw [log_checked hj]
  cases hp : (checkDone S.hash S.config (monitor c) b res).2 with
  | none => rfl
  | some p => exact eventsAt_other hc hb hs (urlOf_checkDone hp)

theorem checked_runs (hinj : Function.Injective S.hash) (hk : Runs S url k c) (j : ℕ)
    (res : CheckResult) :
    let vs := resultsOn url c (.checked j res)
    Runs S url ((streakSystem (rules S.config)).run k vs) (checked S c j res).1 ∧
      eventsAt urlOf url ((checked S c j res).2.map Prod.fst) =
        (streakSystem (rules S.config)).observe (turns S.config url) k vs := by
  have hd := (checked_recorded S hk.managed j res).managed
  simp only [resultsOn]
  cases hj : c.pending[j]? with
  | none =>
    simp only [checked, hj]
    exact ⟨hk, rfl⟩
  | some b =>
    have hb : b ∈ c.pool.inner.backends := hk.managed.pending b (List.mem_of_getElem? hj)
    have hm := tracked hk.managed hk.keys
    have hstep : (checked S c j res).1 =
        { pool := { c.pool with heap := (checkDone S.hash S.config (monitor c) b res).1.heap }
          health := (checkDone S.hash S.config (monitor c) b res).1.health
          pending := c.pending.eraseIdx j } := by
      simp only [checked, hj, monitor]
    have hkeys := (checkDone_tracked hinj S.config hm hb res).keys
    have hserver : ∀ a : Backend, a.server
        (checkDone S.hash S.config (monitor c) b res).1.heap = a.server c.pool.heap :=
      server_checkDone S.config (monitor c) b res
    have hphases := phases_checkDone hinj S.config hm hb res
    by_cases hs : b.server c.pool.heap = serverOf url
    · have htold := told_checkDone hinj hk hb hs res
      simp only [hs, if_true, System.run_cons, System.run_nil, System.observe_cons,
        System.observe_nil, List.append_nil]
      constructor
      · rw [hstep] at hd ⊢
        refine ⟨hd, hkeys, ?_, ?_⟩
        · intro a ha has
          have hab : a = b :=
            server_inj hk.managed ha hb (((hserver a).symm.trans has).trans hs.symm)
          subst a
          refine (hphases b).trans ?_
          rw [if_pos rfl, hk.pooled b hb hs]
          rfl
        · exact fun habsent => (habsent (mem_servers.mpr ⟨b, hb, (hserver b).trans hs⟩)).elim
      · rw [log_checked hj, htold]
        exact List.filter_eq_self.mpr fun p hp => decide_eq_true (urlOf_turns p hp)
    · simp only [hs, if_false, System.run_nil, System.observe_nil]
      refine ⟨?_, told_other hk.managed hb hs hj res⟩
      rw [hstep] at hd ⊢
      refine ⟨hd, hkeys, ?_, ?_⟩
      · intro a ha has
        have hab : a ≠ b := by
          rintro rfl
          exact hs ((hserver a).symm.trans has)
        refine (hphases a).trans ?_
        rw [if_neg hab]
        exact hk.pooled a ha ((hserver a).symm.trans has)
      · intro habsent
        refine hk.absent fun hin => habsent ?_
        obtain ⟨a, ha, has⟩ := mem_servers.mp hin
        exact mem_servers.mpr ⟨a, ha, (hserver a).trans has⟩

/-- One step as the checks of a server see it: its post, or results of its own. -/
theorem next_runs (hinj : Function.Injective S.hash) (hparse : Checkable S url)
    (hk : Runs S url k c) {e : Event} (hnew : NewPost S c e) :
    let vs := resultsOn url c e
    Runs S url ((streakSystem (rules S.config)).run k vs) (ManagerProcess.next S c e) ∧
      toldOf S url c e = (if postedBy S e = some url then [.newServer url] else []) ++
        (streakSystem (rules S.config)).observe (turns S.config url) k vs := by
  have hmanaged := (next_recorded hk.managed (freshPost_of_new hnew)).managed
  cases e with
  | api req =>
    revert hmanaged
    simp only [ManagerProcess.next, toldOf, published, step, postedBy, resultsOn, System.run_nil,
      System.observe_nil, List.append_nil]
    cases hr : call S.hyper S.serde c.pool req with
    | none =>
      have hnone : posted S.hyper S.serde req = none := posted_of_panic hr
      simp only [hnone]
      exact fun _ => ⟨hk, rfl⟩
    | some r =>
      simp only [Option.map_some, Option.getD_some]
      rcases call_cases hr with ⟨u, hu, hpub, hpool⟩ | ⟨hu, hpub, hpool⟩
      · intro hd
        refine ⟨post_runs hk (hnew u hu) hd hpool rfl, ?_⟩
        simp only [hpub, hu]
        by_cases huu : u = url <;> simp [eventsAt, urlOf, huu]
      · intro hd
        simp only [hpub, hu]
        have hserver : ∀ b : Backend, b.server r.pool.heap = b.server c.pool.heap := by
          intro b; rw [hpool]
        refine ⟨hk.keep hd (by rw [hpool]) rfl hserver ?_, rfl⟩
        intro b _ _
        simp only [hpool]
  | timer =>
    simp only [postedBy, resultsOn]
    obtain ⟨hruns, htold⟩ := healthRun_runs hparse hk fun _ (hb : _ ∈ c.pool.all) => hb
    exact ⟨hruns, htold⟩
  | checked j res =>
    obtain ⟨hruns, htold⟩ := checked_runs hinj hk j res
    exact ⟨hruns, htold⟩

omit [DecidableEq H] in
theorem unposted_of_result {es : List Event} (hc : Unposted S c es) {e : Event}
    (hpend : ∀ b ∈ c.pending, b ∈ c.pool.inner.backends) (he : resultsOn url c e ≠ []) :
    url ∉ es.filterMap (postedBy S) := by
  intro hin
  apply hc.absent url hin
  cases e with
  | checked j res =>
    simp only [resultsOn] at he
    cases hj : c.pending[j]? with
    | none => rw [hj] at he; exact absurd rfl he
    | some b =>
      rw [hj] at he
      by_cases hs : b.server c.pool.heap = serverOf url
      · exact mem_servers.mpr ⟨b, hpend b (List.mem_of_getElem? hj), hs⟩
      · exact absurd (if_neg hs) he
  | api | timer => exact absurd rfl he

theorem toldOf_run (c : Core Uri H) (es : List Event) :
    eventsAt urlOf url (publications S c es) = (coreSystem S).observe (toldOf S url) c es := by
  induction es generalizing c with
  | nil => rfl
  | cons e es ih =>
    rw [System.observe_cons, ← ih, toldOf, ← eventsAt_append]
    rw [publications, System.observe_cons, List.map_append]
    rfl

theorem Runs.inState (hk : Runs S url k c) (hpooled : serverOf url ∈ c.pool.servers) :
    stateIn (view c.pool) (serverOf url) = some k.state := by
  obtain ⟨b, hb, hs⟩ := mem_servers.mp hpooled
  rw [← hs, stateIn_view hk.managed.distinct hb]
  exact congrArg (fun k => some k.state) (hk.pooled b hb hs)

theorem run_runs (hinj : Function.Injective S.hash) (hparse : Checkable S url)
    (hk : Runs S url k c) {es : List Event} (hc : Unposted S c es) :
    let vs := (coreSystem S).observe (resultsOn url) c es
    Runs S url ((streakSystem (rules S.config)).run k vs) ((coreSystem S).run c es) ∧
      (coreSystem S).observe (toldOf S url) c es =
        (if url ∈ es.filterMap (postedBy S) then [.newServer url] else []) ++
          (streakSystem (rules S.config)).observe (turns S.config url) k vs := by
  induction es generalizing c k with
  | nil => exact ⟨hk, rfl⟩
  | cons e es ih =>
    obtain ⟨hnew, hrest⟩ := hc.next
    obtain ⟨hruns, htold⟩ := next_runs hinj hparse hk hnew
    obtain ⟨hruns', htold'⟩ := ih hruns hrest
    simp only [System.observe_cons, System.run_append, System.observe_append, System.run_cons]
    refine ⟨hruns', ?_⟩
    have hmem : url ∈ (e :: es).filterMap (postedBy S) ↔
        postedBy S e = some url ∨ url ∈ es.filterMap (postedBy S) := by
      cases hp : postedBy S e with
      | none => simp [hp]
      | some u => simp [hp, eq_comm]
    rw [htold]
    refine (congrArg _ htold').trans ?_
    by_cases hnone : resultsOn url c e = []
    · rw [hnone, System.observe_nil, List.append_nil, List.nil_append, ← List.append_assoc]
      congr 1
      by_cases hp : postedBy S e = some url
      · have hlater : url ∉ es.filterMap (postedBy S) := by
          have honce := hc.once
          rw [List.filterMap_cons, hp] at honce
          exact (List.nodup_cons.mp honce).1
        simp only [hmem, hp, hlater, or_false, if_true, if_false, List.append_nil]
      · simp only [hmem, hp, false_or, if_false, List.nil_append]
    · have hposted := unposted_of_result hc hk.managed.pending hnone
      rw [hmem, not_or] at hposted
      simp only [hmem, hposted.1, hposted.2, or_self, if_false, List.nil_append]
      rfl

/-- All that is published about a server, in every run that posts no url twice: that it is
new, and every turn of its state under its own check results, whatever the other servers'
checks, the posts and the timers in between; and the pool has it in the state that these
results give. The hash has no collisions, and the map never hashes its keys again. -/
theorem publications_follow_checks (S : Setting Uri H) (hinj : Function.Injective S.hash)
    (h : BackendHeap Uri) (es : List Event) (honce : (es.filterMap (postedBy S)).Nodup)
    (url : Uri) (hparse : Checkable S url) :
    let c := (coreSystem S).run (initial h) es
    let vs := (coreSystem S).observe (resultsOn url) (initial h) es
    eventsAt urlOf url (publications S (initial h) es) =
      (if url ∈ es.filterMap (postedBy S) then [.newServer url] else []) ++
        (streakSystem (rules S.config)).observe (turns S.config url) fresh vs ∧
    (url ∈ es.filterMap (postedBy S) →
      stateIn (view c.pool) (serverOf url) =
        some ((streakSystem (rules S.config)).run fresh vs).state) := by
  intro c vs
  obtain ⟨hruns, htold⟩ := run_runs hinj hparse (initial_runs h) (initial_unposted h honce)
  refine ⟨(toldOf_run (initial h) es).trans htold, ?_⟩
  intro hposted
  exact hruns.inState ((ManagerPool.serverOf_mem_initial h es url).mpr hposted)

theorem publications_follow_checks_recovering :
    let S := knownUrls ["http://a"]
    let c := (coreSystem S).run (initial blankHeap) recoveringRun
    let vs := (coreSystem S).observe (resultsOn "http://a") (initial blankHeap) recoveringRun
    eventsAt urlOf "http://a" (publications S (initial blankHeap) recoveringRun) =
      (if "http://a" ∈ recoveringRun.filterMap (postedBy S) then [.newServer "http://a"]
        else []) ++
        (streakSystem (rules S.config)).observe (turns S.config "http://a") fresh vs ∧
    ("http://a" ∈ recoveringRun.filterMap (postedBy S) →
      stateIn (view c.pool) (serverOf "http://a") =
        some ((streakSystem (rules S.config)).run fresh vs).state) :=
  publications_follow_checks (knownUrls ["http://a"]) Function.injective_id blankHeap
    recoveringRun (by decide) "http://a" ⟨_, rfl⟩

end CheckedPublications
