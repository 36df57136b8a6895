import Weldr.PoolFairness
import Weldr.PoolServerSet
import Weldr.ManagerProcess

/-! The manager's pool by the operations that its steps make on it. It only grows, and it
holds the servers that were posted, however often, and no others. -/
namespace ManagerPool

open BackendPool TransitionSystems PoolSteps PoolServerSet PoolView HealthMonitor ManagementApi
  ManagerProcess

section Pools

variable {Uri : Type} [DecidableEq Uri] {p : Pool Uri}

theorem mem_servers_next (hp : WellFormed p) {op : PoolOp Uri} (hop : op.isRemove = false)
    (s : Server Uri) : s ∈ (PoolOp.next p op).servers ↔ s ∈ p.servers ∨ op = .add s := by
  have hkeep : ∀ b ∈ p.inner.backends, b ∈ (PoolOp.next p op).inner.backends ∧
      b.server (PoolOp.next p op).heap = b.server p.heap := by
    have hgrow := PoolFairness.next_prefix (p := p) hop
    exact fun b hb => ⟨hgrow.subset hb, next_server hp op (hp.allocated b hb)⟩
  rw [mem_servers, mem_servers]
  constructor
  · rintro ⟨b, hb, rfl⟩
    rcases mem_next hp hb with hold | ⟨t, rfl, hread⟩
    · exact Or.inl ⟨b, hold, (hkeep b hold).2.symm⟩
    · exact Or.inr (by rw [Backend.server, hread]; rfl)
  · rintro (⟨b, hb, rfl⟩ | rfl)
    · exact ⟨b, hkeep b hb⟩
    · obtain ⟨b, hb, hread⟩ := add_fresh p s
      exact ⟨b, hb, by rw [Backend.server]; exact congrArg InnerBackend.server hread⟩

theorem mem_servers_run (hp : WellFormed p) {ops : List (PoolOp Uri)}
    (hops : ∀ op ∈ ops, op.isRemove = false) (s : Server Uri) :
    WellFormed ((poolSystem Uri).run p ops) ∧
      (s ∈ ((poolSystem Uri).run p ops).servers ↔ s ∈ p.servers ∨ PoolOp.add s ∈ ops) := by
  induction ops generalizing p with
  | nil => simpa using hp
  | cons op ops ih =>
    have hnext := mem_servers_next hp (hops op (by simp)) s
    obtain ⟨hwf, hrest⟩ := ih (next_wellFormed hp op) fun a ha => hops a (by simp [ha])
    refine ⟨hwf, hrest.trans ?_⟩
    rw [hnext, List.mem_cons, or_assoc, @eq_comm _ op]

end Pools

variable {Uri H : Type} [DecidableEq Uri] [DecidableEq H] {S : Setting Uri H}

def Allowed (S : Setting Uri H) (e : Event) : PoolOp Uri → Prop
  | .add s => ∃ u, postedBy S e = some u ∧ s = serverOf u
  | .markDown _ | .markActive _ => True
  | .remove _ | .find _ | .get | .incSuccess _ | .incFailure _ => False

omit [DecidableEq H] [DecidableEq Uri] in
theorem allowed_isRemove {e : Event} {op : PoolOp Uri} (h : Allowed S e op) :
    op.isRemove = false := by
  cases op with
  | remove s => cases h
  | add | find | get | markDown | markActive | incSuccess | incFailure => rfl

omit [DecidableEq H] in
theorem healthRun_operations (c : Core Uri H) (bs : List Backend) :
    ∃ ops : List (PoolOp Uri), (∀ op ∈ ops, Allowed S .timer op) ∧
      (healthRun S c bs).1.pool = (poolSystem Uri).run c.pool ops := by
  induction bs generalizing c with
  | nil => exact ⟨[], by simp, rfl⟩
  | cons b bs ih =>
    have hone : ∃ ops : List (PoolOp Uri), (∀ op ∈ ops, Allowed S .timer op) ∧
        (checkBackend S c b).1.pool = (poolSystem Uri).run c.pool ops := by
      unfold checkBackend checkStart
      cases S.hyper.fromStr (S.hyper.display (b.server c.pool.heap).url ++ S.config.uriPath) with
      | some url => exact ⟨[], by simp, rfl⟩
      | none =>
        by_cases ha : b.isActive c.pool.heap = true
        · refine ⟨[.markDown b], by simp [Allowed], ?_⟩
          simp only [ha, if_true]
          rfl
        · refine ⟨[], by simp, ?_⟩
          simp only [ha]
          rfl
    obtain ⟨ops, hops, hpool⟩ := hone
    obtain ⟨rest, hrest, htail⟩ := ih (checkBackend S c b).1
    refine ⟨ops ++ rest, ?_, ?_⟩
    · intro op hop
      rcases List.mem_append.mp hop with hop | hop
      · exact hops op hop
      · exact hrest op hop
    · rw [System.run_append, ← hpool]
      exact htail

/-- A step of the manager adds what it posts and marks backends, nothing else. -/
theorem next_operations (c : Core Uri H) (e : Event) :
    ∃ ops : List (PoolOp Uri), (∀ op ∈ ops, Allowed S e op) ∧
      (∀ u, postedBy S e = some u → PoolOp.add (serverOf u) ∈ ops) ∧
      (next S c e).pool = (poolSystem Uri).run c.pool ops := by
  cases e with
  | api req =>
    simp only [next, step, postedBy]
    cases hr : call S.hyper S.serde c.pool req with
    | none => exact ⟨[], by simp, by simp [posted_of_panic hr], rfl⟩
    | some r =>
      rcases call_cases hr with ⟨u, hu, -, hpool⟩ | ⟨hu, -, hpool⟩
      · refine ⟨[.add (serverOf u)], ?_, ?_, ?_⟩
        · intro op hop
          rw [List.mem_singleton.mp hop]
          exact ⟨u, hu, rfl⟩
        · intro v hv
          obtain rfl := Option.some.inj (hu.symm.trans hv)
          simp
        · exact hpool
      · exact ⟨[], by simp, by simp [hu], hpool⟩
  | timer =>
    obtain ⟨ops, hops, hpool⟩ := healthRun_operations (S := S) c c.pool.all
    exact ⟨ops, hops, by simp [postedBy], hpool⟩
  | checked k res =>
    have hpool : (next S c (.checked k res)).pool = (checked S c k res).1.pool := rfl
    rw [hpool, checked]
    cases hk : c.pending[k]? with
    | none => exact ⟨[], by simp, by simp [postedBy], rfl⟩
    | some b =>
      rcases checkDone_cases S.hash S.config { heap := c.pool.heap, health := c.health } b res with
        ⟨hh, -⟩ | ⟨hh, -⟩ | ⟨hh, -⟩ <;> simp only [hh]
      · exact ⟨[], by simp, by simp [postedBy], rfl⟩
      · exact ⟨[.markDown b], by simp [Allowed], by simp [postedBy], rfl⟩
      · exact ⟨[.markActive b], by simp [Allowed], by simp [postedBy], rfl⟩

theorem mem_servers_posted {c : Core Uri H} (hc : WellFormed c.pool) (es : List Event)
    (s : Server Uri) :
    WellFormed ((coreSystem S).run c es).pool ∧
      (s ∈ ((coreSystem S).run c es).pool.servers ↔
        s ∈ c.pool.servers ∨ ∃ u ∈ es.filterMap (postedBy S), s = serverOf u) := by
  induction es generalizing c with
  | nil => simpa using hc
  | cons e es ih =>
    obtain ⟨ops, hops, hadd, hpool⟩ := next_operations (S := S) c e
    obtain ⟨hwf, hmem⟩ := mem_servers_run hc (fun op hop => allowed_isRemove (hops op hop)) s
    rw [← hpool] at hwf hmem
    obtain ⟨hwf', hrest⟩ := ih hwf
    have hown : PoolOp.add s ∈ ops ↔ ∃ u, postedBy S e = some u ∧ s = serverOf u := by
      constructor
      · exact fun h => hops _ h
      · rintro ⟨u, hu, rfl⟩
        exact hadd u hu
    refine ⟨hwf', hrest.trans ?_⟩
    rw [hmem, hown, or_assoc]
    refine or_congr Iff.rfl ?_
    cases hu : postedBy S e with
    | none => simp [hu]
    | some u => simp [hu]

theorem mem_servers_initial (h : BackendHeap Uri) (es : List Event) (s : Server Uri) :
    s ∈ ((coreSystem S).run (initial h) es).pool.servers ↔
      ∃ u ∈ es.filterMap (postedBy S), s = serverOf u := by
  have hmem := (mem_servers_posted (S := S) (c := initial h) (default_wellFormed h) es s).2
  exact hmem.trans (or_iff_right List.not_mem_nil)

theorem serverOf_mem_initial (h : BackendHeap Uri) (es : List Event) (u : Uri) :
    serverOf u ∈ ((coreSystem S).run (initial h) es).pool.servers ↔
      u ∈ es.filterMap (postedBy S) := by
  rw [mem_servers_initial]
  constructor
  · rintro ⟨v, hv, he⟩
    obtain rfl : u = v := congrArg Server.url he
    exact hv
  · exact fun hu => ⟨u, hu, rfl⟩

structure Sound (c : Core Uri H) : Prop where
  wellFormed : WellFormed c.pool
  mapped : Mapped c.pool
  pending : ∀ b ∈ c.pending, b ∈ c.pool.inner.backends

omit [DecidableEq H] in
theorem run_sound_pool {p : Pool Uri} {e : Event} {ops : List (PoolOp Uri)}
    (hops : ∀ op ∈ ops, Allowed S e op) (hp : WellFormed p) (hm : Mapped p) :
    let q := (poolSystem Uri).run p ops
    WellFormed q ∧ Mapped q ∧ p.inner.backends <+: q.inner.backends := by
  induction ops generalizing p with
  | nil => exact ⟨hp, hm, List.prefix_refl _⟩
  | cons op ops ih =>
    have hop : Allowed S e op := hops op List.mem_cons_self
    have hmap : ∀ s, op = .add s → s.mapHost = true := by
      rintro s rfl
      obtain ⟨u, -, rfl⟩ := hop
      rfl
    obtain ⟨hwf, hmapped, hgrow⟩ := ih (fun a ha => hops a (List.mem_cons_of_mem _ ha))
      (next_wellFormed hp op) (next_mapped hp hm hmap)
    have hone := PoolFairness.next_prefix (p := p) (allowed_isRemove hop)
    exact ⟨hwf, hmapped, hone.trans hgrow⟩

omit [DecidableEq Uri] [DecidableEq H] in
theorem healthRun_pending (c : Core Uri H) (bs : List Backend) :
    ∀ b ∈ (healthRun S c bs).1.pending, b ∈ c.pending ∨ b ∈ bs := by
  induction bs generalizing c with
  | nil => exact fun b hb => Or.inl hb
  | cons a bs ih =>
    intro b hb
    rcases ih _ b hb with hb | hb
    · have hone : b ∈ c.pending ∨ b = a := by
        simp only [checkBackend] at hb
        split at hb
        · exact (List.mem_append.mp hb).imp_right List.mem_singleton.mp
        · exact Or.inl hb
      rcases hone with hb | rfl
      · exact Or.inl hb
      · exact Or.inr List.mem_cons_self
    · exact Or.inr (List.mem_cons_of_mem _ hb)

theorem next_pending (c : Core Uri H) (e : Event) :
    ∀ b ∈ (next S c e).pending, b ∈ c.pending ∨ b ∈ c.pool.inner.backends := by
  intro b hb
  cases e with
  | api req =>
    simp only [next, step] at hb
    cases hr : call S.hyper S.serde c.pool req with
    | none => exact Or.inl (by simpa [hr] using hb)
    | some r => exact Or.inl (by simpa [hr] using hb)
  | timer => exact healthRun_pending c c.pool.all b hb
  | checked k res =>
    have hpend : (next S c (.checked k res)).pending = (checked S c k res).1.pending := rfl
    rw [hpend, checked] at hb
    cases hk : c.pending[k]? with
    | none => exact Or.inl (by simpa [hk] using hb)
    | some a =>
      simp only [hk] at hb
      exact Or.inl (List.mem_of_mem_eraseIdx hb)

theorem next_sound {c : Core Uri H} (hc : Sound c) (e : Event) : Sound (next S c e) := by
  obtain ⟨ops, hops, -, hpool⟩ := next_operations (S := S) c e
  obtain ⟨hwf, hmapped, hgrow⟩ := run_sound_pool hops hc.wellFormed hc.mapped
  rw [← hpool] at hwf hmapped hgrow
  refine ⟨hwf, hmapped, fun b hb => hgrow.subset ?_⟩
  rcases next_pending c e b hb with hb | hb
  · exact hc.pending b hb
  · exact hb

theorem run_sound {c : Core Uri H} (hc : Sound c) (es : List Event) :
    Sound ((coreSystem S).run c es) := by
  induction es generalizing c with
  | nil => exact hc
  | cons e es ih => exact ih (next_sound hc e)

omit [DecidableEq Uri] [DecidableEq H] in
theorem initial_sound (h : BackendHeap Uri) : Sound (initial h : Core Uri H) :=
  ⟨default_wellFormed h, fun _ hb => absurd hb List.not_mem_nil,
    fun _ hb => absurd hb List.not_mem_nil⟩

end ManagerPool

/-! What the manager publishes is what happens to its pool: every change of the view is
followed by the publication that stands for it, and nothing else is published. -/
namespace ManagerRecords

open BackendPool TransitionSystems PoolSteps PoolServerSet SubscriberProtocol PoolView HealthMonitor
  ManagementApi ManagerProcess

section Steps

variable {Uri H : Type} [DecidableEq Uri]

structure Managed (c : Core Uri H) : Prop where
  distinct : Distinct c.pool
  mapped : Mapped c.pool
  pending : ∀ b ∈ c.pending, b ∈ c.pool.inner.backends

omit [DecidableEq Uri] in
theorem initial_managed (h : BackendHeap Uri) : Managed (initial h : Core Uri H) :=
  ⟨default_distinct h, fun _ hb => absurd hb List.not_mem_nil,
    fun _ hb => absurd hb List.not_mem_nil⟩

omit [DecidableEq Uri] in
theorem managed_of_sound {c : Core Uri H} (hc : ManagerPool.Sound c)
    (hservers : c.pool.servers.Nodup) : Managed c :=
  ⟨⟨hc.wellFormed, hservers⟩, hc.mapped, hc.pending⟩

def entries (log : Log Uri) : List (Publication Uri × View Uri) :=
  log.map fun e => (e.1, view e.2)

/-- A step and its log: what it keeps, and that the log says what happened. -/
structure Recorded (c : Core Uri H) (r : Core Uri H × Log Uri) : Prop where
  managed : Managed r.1
  backends : c.pool.inner.backends <+: r.1.pool.inner.backends
  records : Records applied (view c.pool) (entries r.2) (view r.1.pool)

variable {c d : Core Uri H}

theorem Recorded.trans {r q : Core Uri H × Log Uri} (h : Recorded c r) (hq : Recorded r.1 q) :
    Recorded c (q.1, r.2 ++ q.2) := by
  refine ⟨hq.managed, h.backends.trans hq.backends, ?_⟩
  rw [entries, List.map_append]
  exact h.records.append hq.records

theorem recorded_quiet (hc : Managed c) (hp : d.pool = c.pool)
    (hpend : ∀ b ∈ d.pending, b ∈ c.pool.inner.backends) : Recorded c (d, []) := by
  refine ⟨⟨?_, ?_, ?_⟩, ?_, ?_⟩ <;> simp only [hp]
  · exact hc.distinct
  · exact hc.mapped
  · exact hpend
  · exact List.prefix_refl _
  · rfl

theorem recorded_next (hc : Managed c) {op : PoolOp Uri} (hf : FreshAdd c.pool op)
    (hadd : ∀ s, op = .add s → s.mapHost = true) (hrem : op.isRemove = false)
    (hp : d.pool = PoolOp.next c.pool op) (hpend : ∀ b ∈ d.pending, b ∈ c.pool.inner.backends)
    {p : Publication Uri}
    (hview : view (PoolOp.next c.pool op) = applied (view c.pool) p) :
    Recorded c (d, [(p, d.pool)]) := by
  have hgrow : c.pool.inner.backends <+: d.pool.inner.backends :=
    hp ▸ PoolFairness.next_prefix hrem
  refine ⟨⟨?_, ?_, fun b hb => hgrow.subset (hpend b hb)⟩, hgrow, ?_⟩
  · rw [hp]; exact next_distinct hc.distinct hf
  · rw [hp]; exact next_mapped hc.distinct.wellFormed hc.mapped hadd
  · exact ⟨by rw [← hview, hp], rfl⟩

omit [DecidableEq Uri] in
theorem serverOf_pooled (hc : Managed c) {b : Backend} (hb : b ∈ c.pool.inner.backends) :
    serverOf (b.server c.pool.heap).url = b.server c.pool.heap := by
  have hmap := hc.mapped b hb
  cases hs : b.server c.pool.heap
  rw [hs] at hmap
  simp only at hmap
  rw [serverOf, hmap]

theorem recorded_mark (hc : Managed c) {b : Backend} (hb : b ∈ c.pool.inner.backends)
    (st : ServerState) (hp : d.pool = PoolOp.next c.pool (markOp b st))
    (hpend : ∀ b ∈ d.pending, b ∈ c.pool.inner.backends) :
    Recorded c (d, [(markPublication (b.server d.pool.heap).url st, d.pool)]) := by
  have hserver : b.server d.pool.heap = b.server c.pool.heap := by
    rw [hp]
    exact server_mark c.pool b b st
  have hview : applied (view c.pool) (markPublication (b.server c.pool.heap).url st) =
      setState (b.server c.pool.heap) st (view c.pool) := by
    rw [← serverOf_pooled hc hb]
    cases st <;> rfl
  rw [hserver]
  refine recorded_next hc ?_ ?_ ?_ hp hpend ((view_mark hc.distinct hb st).trans hview.symm)
  · cases st <;> trivial
  · cases st <;> simp [markOp]
  · cases st <;> rfl

theorem checkBackend_recorded (S : Setting Uri H) (hc : Managed c) {b : Backend}
    (hb : b ∈ c.pool.inner.backends) : Recorded c (checkBackend S c b) := by
  unfold checkBackend checkStart
  cases hu : S.hyper.fromStr
      (S.hyper.display (b.server c.pool.heap).url ++ S.config.uriPath) with
  | some url =>
    refine recorded_quiet hc rfl ?_
    intro a ha
    rcases List.mem_append.mp ha with ha | ha
    · exact hc.pending a ha
    · rw [List.mem_singleton.mp ha]; exact hb
  | none =>
    by_cases hact : b.isActive c.pool.heap = true
    · simp only [hact, if_true]
      exact recorded_mark hc hb .down rfl hc.pending
    · simp only [hact]
      exact recorded_quiet hc rfl hc.pending

theorem healthRun_recorded (S : Setting Uri H) (hc : Managed c) {bs : List Backend}
    (hbs : ∀ b ∈ bs, b ∈ c.pool.inner.backends) : Recorded c (healthRun S c bs) := by
  induction bs generalizing c with
  | nil => exact recorded_quiet hc rfl hc.pending
  | cons b bs ih =>
    have hone := checkBackend_recorded S hc (hbs b (by simp))
    refine hone.trans (ih hone.managed ?_)
    intro a ha
    exact hone.backends.subset (hbs a (by simp [ha]))

theorem api_recorded {S : Setting Uri H} (hc : Managed c) {req : ApiRequest}
    (hf : ∀ u, posted S.hyper S.serde req = some u → FreshAdd c.pool (.add (serverOf u)))
    {r : Handled Uri} (hr : call S.hyper S.serde c.pool req = some r) :
    Recorded c ({ c with pool := r.pool }, r.published.toList.map fun p => (p, r.pool)) := by
  rcases call_cases hr with ⟨u, hu, hpub, hpool⟩ | ⟨-, hpub, hpool⟩
  · rw [hpub]
    refine recorded_next (d := { c with pool := r.pool }) hc (hf u hu) ?_ rfl hpool hc.pending ?_
    · intro s hs
      obtain rfl := PoolOp.add.inj hs
      rfl
    · exact view_add hc.distinct.wellFormed (hf u hu)
  · rw [hpub]
    exact recorded_quiet hc hpool hc.pending

variable [DecidableEq H]

theorem checked_recorded (S : Setting Uri H) (hc : Managed c) (k : ℕ) (res : CheckResult) :
    Recorded c (checked S c k res) := by
  unfold checked
  cases hk : c.pending[k]? with
  | none => exact recorded_quiet hc rfl hc.pending
  | some b =>
    have hb : b ∈ c.pool.inner.backends := hc.pending b (List.mem_of_getElem? hk)
    have hpend : ∀ a ∈ c.pending.eraseIdx k, a ∈ c.pool.inner.backends := fun a ha =>
      hc.pending a (List.mem_of_mem_eraseIdx ha)
    rcases checkDone_cases S.hash S.config { heap := c.pool.heap, health := c.health } b res with
      ⟨hh, hp⟩ | ⟨hh, hp⟩ | ⟨hh, hp⟩ <;> simp only [hh, hp]
    · exact recorded_quiet hc rfl hpend
    · exact recorded_mark hc hb .down rfl hpend
    · exact recorded_mark hc hb .active rfl hpend

/-- The additions through the API meet no backend of their server, or one as it was made. -/
def FreshPost (S : Setting Uri H) (c : Core Uri H) (e : Event) : Prop :=
  ∀ u ∈ postedBy S e, FreshAdd c.pool (.add (serverOf u))

instance (S : Setting Uri H) (c : Core Uri H) (e : Event) : Decidable (FreshPost S c e) :=
  inferInstanceAs (Decidable (∀ u ∈ postedBy S e, FreshAdd c.pool (.add (serverOf u))))

theorem step_recorded {S : Setting Uri H} (hc : Managed c) {e : Event} (hf : FreshPost S c e)
    {r : Core Uri H × Log Uri} (hr : step S c e = some r) : Recorded c r := by
  cases e with
  | api req =>
    obtain ⟨a, ha, rfl⟩ := Option.map_eq_some_iff.mp hr
    exact api_recorded hc hf ha
  | timer =>
    obtain rfl := Option.some.inj hr
    exact healthRun_recorded S hc fun _ hb => hb
  | checked k res =>
    obtain rfl := Option.some.inj hr
    exact checked_recorded S hc k res

theorem next_recorded {S : Setting Uri H} (hc : Managed c) {e : Event}
    (hf : FreshPost S c e) : Recorded c (next S c e, published S c e) := by
  unfold next published
  cases hr : step S c e with
  | none => exact recorded_quiet hc rfl hc.pending
  | some r => exact step_recorded hc hf hr

/-- Over a run, the log replays what happened to the pool. -/
theorem run_records {S : Setting Uri H} (hc : Managed c) {es : List Event}
    (hf : (coreSystem S).Always (FreshPost S) c es) :
    Managed ((coreSystem S).run c es) ∧
      Records applied (view c.pool)
        ((coreSystem S).observe (fun c e => entries (published S c e)) c es)
        (view ((coreSystem S).run c es).pool) := by
  have hinv := System.always_invariant (T := coreSystem S) (I := Managed) (P := FreshPost S)
    (fun _ _ hc hf => (next_recorded hc hf).managed) hc hf
  refine ⟨hinv.2, ?_⟩
  have hsteps : (coreSystem S).Always (fun c e => Records applied (view c.pool)
      (entries (published S c e)) (view ((coreSystem S).next c e).pool)) c es :=
    hinv.1.imp fun _ _ h => (next_recorded h.1 h.2).records
  exact records_run (f := fun c : Core Uri H => view c.pool) hsteps

end Steps

end ManagerRecords
