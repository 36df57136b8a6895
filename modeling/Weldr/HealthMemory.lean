import Weldr.CheckedPublications
import Weldr.Registration

/-! The memory of the health checks over the manager's runs. A record belongs to a pooled
backend in one of its two states and is never made twice, so that the map is bounded by the
pool, however many results come. -/
namespace HealthMemory

open BackendPool TransitionSystems PoolSteps PoolServerSet PoolView RecordedHashMap HealthMonitor
  HealthPhases ManagementApi ManagerProcess ManagerRecords ManagerPool PublicationStory
  ReplicaAgreement CheckedPublications ServerListing

variable {Uri H : Type} [DecidableEq Uri]

section Pools

variable {p : Pool Uri}

theorem reading_operations {S : Setting Uri H} {e : Event} {ops : List (PoolOp Uri)}
    (hp : WellFormed p) (hops : ∀ op ∈ ops, Allowed S e op) {b : Backend}
    (hb : b ∈ p.inner.backends) (st : ServerState) :
    { b.read ((poolSystem Uri).run p ops).heap with state := st } =
      { b.read p.heap with state := st } := by
  induction ops generalizing p with
  | nil => rfl
  | cons op ops ih =>
    have hop := hops op (by simp)
    have hgrow := PoolFairness.next_prefix (p := p) (allowed_isRemove hop)
    refine (ih (next_wellFormed hp op) (fun a ha => hops a (by simp [ha]))
      (hgrow.subset hb)).trans ?_
    cases op with
    | add s =>
      have hread : b.read (PoolOp.next p (.add s)).heap = b.read p.heap := by
        by_cases hs : ∃ b ∈ p.inner.backends, b.read p.heap = InnerBackend.new s
        · simp only [PoolOp.next, add_found hp hs, read_alloc (hp.allocated b hb)]
        · simp only [PoolOp.next, add_missing hp hs, read_alloc (hp.allocated b hb)]
      exact congrArg (fun i => { i with state := st }) hread
    | markDown a =>
      exact p.heap.modify_reading (fun i => { i with state := st })
        (f := fun i => { i with state := .down }) (by intro; rfl) a.inner b.inner
    | markActive a =>
      exact p.heap.modify_reading (fun i => { i with state := st })
        (f := fun i => { i with state := .active }) (by intro; rfl) a.inner b.inner
    | remove | find | get | incSuccess | incFailure => cases hop

end Pools

variable [DecidableEq H] {S : Setting Uri H} {c d : Core Uri H}

omit [DecidableEq Uri] [DecidableEq H] in
theorem healthRun_health (c : Core Uri H) (bs : List Backend) :
    (healthRun S c bs).1.health = c.health := by
  induction bs generalizing c with
  | nil => rfl
  | cons b bs ih => exact ih (checkBackend S c b).1

/-- A step uses the map at most once, for the backend of a check in flight. -/
theorem next_health (S : Setting Uri H) (c : Core Uri H) (e : Event) :
    (next S c e).health = c.health ∨
      ∃ b ∈ c.pending, ∃ f,
        (next S c e).health = (withBackend S.hash c.pool.heap c.health b f).1 := by
  cases e with
  | api req =>
    refine Or.inl ?_
    simp only [next, step]
    cases call S.hyper S.serde c.pool req <;> rfl
  | timer => exact Or.inl (healthRun_health c c.pool.all)
  | checked k res =>
    have hstep : (next S c (.checked k res)).health = (checked S c k res).1.health := rfl
    rw [hstep, checked]
    cases hk : c.pending[k]? with
    | none => exact Or.inl rfl
    | some b =>
      refine Or.inr ⟨b, List.mem_of_getElem? hk,
        decision S.config (b.read c.pool.heap).state res.passed, ?_⟩
      simp only [checkDone_monitor]
      split <;> rfl

/-- Each record is one of a pooled backend in one of its states, and no two are of the same
backend with the same hash. -/
structure Bounded (hash : InnerBackend Uri → H) (c : Core Uri H) : Prop where
  managed : Managed c
  once : (slots c.health).Nodup
  own : ∀ x ∈ slots c.health, x.1 ∈ c.pool.inner.backends ∧
    ∃ st, x.2 = hash { x.1.read c.pool.heap with state := st }

omit [DecidableEq Uri] [DecidableEq H] in
theorem initial_bounded {hash : InnerBackend Uri → H} (h : BackendHeap Uri) :
    Bounded hash (initial h : Core Uri H) := by
  refine ⟨initial_managed h, List.nodup_nil, ?_⟩
  intro x hx
  cases hx

omit [DecidableEq Uri] [DecidableEq H] in
theorem Bounded.keys {hash : InnerBackend Uri → H} (hc : Bounded hash c) :
    ∀ e ∈ c.health, e.key ∈ c.pool.inner.backends := fun _ he =>
  (hc.own _ (List.mem_map_of_mem he)).1

theorem next_bounded (hc : Bounded S.hash c) {e : Event} (hnew : NewPost S c e) :
    Bounded S.hash (next S c e) ∧ slots c.health <+: slots (next S c e).health := by
  have hrec := next_recorded hc.managed (freshPost_of_new hnew)
  obtain ⟨ops, hops, -, hpool⟩ := next_operations (S := S) c e
  have hmove : ∀ x : Backend × H, x.1 ∈ c.pool.inner.backends →
      (∃ st, x.2 = S.hash { x.1.read c.pool.heap with state := st }) →
      x.1 ∈ (next S c e).pool.inner.backends ∧
        ∃ st, x.2 = S.hash { x.1.read (next S c e).pool.heap with state := st } := by
    rintro x hx ⟨st, hst⟩
    refine ⟨hrec.backends.subset hx, st, ?_⟩
    rw [hst, hpool, reading_operations hc.managed.distinct.wellFormed hops hx]
  rcases next_health S c e with hh | ⟨b, hb, f, hh⟩
  · refine ⟨⟨hrec.managed, by rw [hh]; exact hc.once, ?_⟩, by rw [hh]⟩
    rw [hh]
    exact fun x hx => hmove x (hc.own x hx).1 (hc.own x hx).2
  · have hpooled := hc.managed.pending b hb
    have hmap : withBackend S.hash c.pool.heap c.health b f =
        withEntry (S.hash (b.read c.pool.heap)) (fun k => k = b) b (.passing 0) f c.health :=
      withBackend_eq (tracked hc.managed hc.keys) hpooled f
    rw [hmap] at hh
    refine ⟨⟨hrec.managed, ?_, ?_⟩, ?_⟩
    · rw [hh]
      exact nodup_slots_withEntry (decide_eq_true rfl) hc.once
    · rw [hh]
      intro x hx
      have hcases : x ∈ slots c.health ∨ x = (b, S.hash (b.read c.pool.heap)) := by
        rw [slots_withEntry] at hx
        split at hx
        · exact Or.inl hx
        · simpa using hx
      rcases hcases with hx | rfl
      · exact hmove x (hc.own x hx).1 (hc.own x hx).2
      · exact hmove (b, S.hash (b.read c.pool.heap)) hpooled ⟨_, rfl⟩
    · rw [hh, slots_withEntry]
      split
      · exact List.prefix_rfl
      · exact List.prefix_append _ _

theorem run_bounded (hc : Bounded S.hash c) {es : List Event}
    (hnew : (coreSystem S).Always (NewPost S) c es) :
    Bounded S.hash ((coreSystem S).run c es) ∧
      slots c.health <+: slots ((coreSystem S).run c es).health := by
  induction es generalizing c with
  | nil => exact ⟨hc, List.prefix_rfl⟩
  | cons e es ih =>
    obtain ⟨hnext, hgrow⟩ := next_bounded hc hnew.1
    obtain ⟨hrun, hgrows⟩ := ih hnext hnew.2
    exact ⟨hrun, hgrow.trans hgrows⟩

def ownSlots (hash : InnerBackend Uri → H) (h : BackendHeap Uri) (b : Backend) :
    List (Backend × H) :=
  [ServerState.active, .down].map fun st => (b, hash { b.read h with state := st })

omit [DecidableEq Uri] [DecidableEq H] in
theorem mem_ownSlots {hash : InnerBackend Uri → H} (hc : Bounded hash c) :
    ∀ x ∈ slots c.health,
      x.1 ∈ c.pool.inner.backends ∧ x ∈ ownSlots hash c.pool.heap x.1 := by
  intro x hx
  obtain ⟨hb, st, hst⟩ := hc.own x hx
  refine ⟨hb, List.mem_map.mpr ⟨st, by cases st <;> simp, ?_⟩⟩
  rw [← hst]

omit [DecidableEq H] in
theorem records_le_two {hash : InnerBackend Uri → H} (hc : Bounded hash c) (s : Server Uri) :
    (c.health.filter fun e => e.key.server c.pool.heap = s).length ≤ 2 := by
  let own := c.health.filter fun e => e.key.server c.pool.heap = s
  have hown : ∀ x ∈ slots own, x ∈ slots c.health ∧ x.1.server c.pool.heap = s := by
    intro x hx
    obtain ⟨e, he, rfl⟩ := List.mem_map.mp hx
    obtain ⟨hin, hs⟩ := List.mem_filter.mp he
    exact ⟨List.mem_map_of_mem hin, of_decide_eq_true hs⟩
  have honce : (slots own).Nodup := hc.once.sublist (List.filter_sublist.map _)
  have hlen : own.length = (slots own).length := (List.length_map _).symm
  change own.length ≤ 2
  rw [hlen]
  cases hslots : slots own with
  | nil => simp
  | cons y ys =>
    have hsub : slots own ⊆ ownSlots hash c.pool.heap y.1 := by
      intro x hx
      obtain ⟨hin, hs⟩ := hown x hx
      obtain ⟨hyin, hys⟩ := hown y (by rw [hslots]; exact List.mem_cons_self)
      obtain ⟨hb, hx⟩ := mem_ownSlots hc x hin
      rw [server_inj hc.managed hb (mem_ownSlots hc y hyin).1 (hs.trans hys.symm)] at hx
      exact hx
    rw [← hslots]
    exact (List.subperm_of_subset honce hsub).length_le

omit [DecidableEq Uri] [DecidableEq H] in
theorem records_le_pool {hash : InnerBackend Uri → H} (hc : Bounded hash c) :
    c.health.length ≤ 2 * c.pool.inner.backends.length := by
  have hsub : slots c.health ⊆ c.pool.inner.backends.flatMap (ownSlots hash c.pool.heap) :=
    fun x hx => List.mem_flatMap.mpr ⟨x.1, mem_ownSlots hc x hx⟩
  have hle := (List.subperm_of_subset hc.once hsub).length_le
  have hlen : (c.pool.inner.backends.flatMap (ownSlots hash c.pool.heap)).length =
      2 * c.pool.inner.backends.length := by
    simp [List.length_flatMap, ownSlots, Nat.mul_comm]
  rwa [hlen, slots, List.length_map] at hle

/-- In every run that posts no url twice, with whatever results and in whatever order, every
record of the health map is one of a posted server, no server has more than two of them, and
none is ever forgotten. So the map holds at most two records for each posted url. That rests
on a map that never hashes its keys again. -/
theorem memory_bounded (S : Setting Uri H) (h : BackendHeap Uri) (es : List Event)
    (honce : (es.filterMap (postedBy S)).Nodup) :
    let c := (coreSystem S).run (initial h) es
    (∀ e ∈ c.health, ∃ u ∈ es.filterMap (postedBy S), e.key.server c.pool.heap = serverOf u) ∧
    (∀ u, (c.health.filter fun e => e.key.server c.pool.heap = serverOf u).length ≤ 2) ∧
    c.health.length ≤ 2 * (es.filterMap (postedBy S)).length ∧
    ∀ pre, pre <+: es → slots ((coreSystem S).run (initial h) pre).health <+: slots c.health := by
  intro c
  have hnew := newPost_run (initial_unposted h honce)
  obtain ⟨hc, -⟩ := run_bounded (initial_bounded h) hnew
  have hservers := servers_run S h honce
  refine ⟨?_, fun u => records_le_two hc _, ?_, ?_⟩
  · intro e he
    have hin : e.key.server c.pool.heap ∈ c.pool.servers :=
      mem_servers.mpr ⟨e.key, hc.keys e he, rfl⟩
    rw [hservers] at hin
    obtain ⟨u, hu, hs⟩ := List.mem_map.mp hin
    exact ⟨u, hu, hs.symm⟩
  · have hlen := congrArg List.length hservers
    rw [Pool.servers, List.length_map, List.length_map] at hlen
    rw [← hlen]
    exact records_le_pool hc
  · rintro pre ⟨post, rfl⟩
    obtain ⟨hpre, hpost⟩ := (System.always_append _ _ _ _ _).mp hnew
    have hgrow := (run_bounded (run_bounded (initial_bounded h) hpre).1 hpost).2
    rw [← System.run_append] at hgrow
    exact hgrow

theorem memory_bounded_recovering :
    let c := (coreSystem (knownUrls ["http://a"])).run (initial blankHeap) recoveringRun
    let posts := recoveringRun.filterMap (postedBy (knownUrls ["http://a"]))
    (∀ e ∈ c.health, ∃ u ∈ posts, e.key.server c.pool.heap = serverOf u) ∧
    (∀ u, (c.health.filter fun e => e.key.server c.pool.heap = serverOf u).length ≤ 2) ∧
    c.health.length ≤ 2 * posts.length ∧
    ∀ pre, pre <+: recoveringRun →
      slots ((coreSystem (knownUrls ["http://a"])).run (initial blankHeap) pre).health <+:
        slots c.health :=
  memory_bounded (knownUrls ["http://a"]) blankHeap recoveringRun (by decide)

example :
    let c := (coreSystem (knownUrls ["http://a"])).run (initial blankHeap) recoveringRun
    c.health.length = 2 := by decide

end HealthMemory
