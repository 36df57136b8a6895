import Weldr.WorkerSubscriber

/-! Where a worker routes after it was told that a server is down. The message marks the
first backend of the server; a second one that was pooled meanwhile stays as it is. -/
namespace WorkerRouting

open BackendPool TransitionSystems RequestTargets PoolSelection PoolSteps PoolFairness
  WorkerSubscriber

variable {Uri : Type}

def DownFor (u : Uri) (p : Pool Uri) : Prop :=
  ∀ b ∈ p.inner.backends, (b.server p.heap).url = u → b.isDown p.heap = true

variable [DecidableEq Uri]

/-- All backends of a url but the first one are down. -/
def LaterDown (u : Uri) (p : Pool Uri) : Prop :=
  ∀ b ∈ (p.inner.backends.filter fun b => (b.server p.heap).url = u).tail,
    b.isDown p.heap = true

instance (u : Uri) (p : Pool Uri) : Decidable (LaterDown u p) :=
  inferInstanceAs (Decidable (∀ b ∈ _, _))

def Restores (hyper : UriText Uri) (u : Uri) : Event → Prop
  | .message (.addServer url) | .message (.markServerActive url) => hyper.fromStr url = some u
  | _ => False

/-- No request goes to a server of `u` before a message that restores `u`. -/
def SilentFor (hyper : UriText Uri) (u : Uri) (w : State Uri) : Prop :=
  ∀ mid, (workerSystem hyper).Valid w mid → (∀ e ∈ mid, ¬ Restores hyper u e) →
    ∀ s ∈ (workerSystem hyper).observe dispatched w mid, s.url ≠ u

structure Serving (p : Pool Uri) : Prop where
  rotating : Rotating p
  mapped : Mapped p

omit [DecidableEq Uri] in
theorem initial_serving (h : BackendHeap Uri) : Serving (initial h).pool :=
  ⟨default_rotating h, fun _ hb => absurd hb List.not_mem_nil⟩

section Operations

variable {p : Pool Uri} {op : PoolOp Uri} {u : Uri}

omit [DecidableEq Uri] in
theorem isDown_state {b : Backend} {h : BackendHeap Uri} :
    b.isDown h = true ↔ (b.read h).state = .down := decide_eq_true_iff

theorem next_serving (hp : Serving p) (hrem : op.isRemove = false)
    (hadd : ∀ s, op = .add s → s.mapHost = true) : Serving (PoolOp.next p op) :=
  ⟨PoolFairness.next_rotating hp.rotating hrem,
    next_mapped hp.rotating.wellFormed hp.mapped hadd⟩

theorem next_downFor (hp : WellFormed p) (hd : DownFor u p)
    (hadd : ∀ s, op = .add s → s.url ≠ u)
    (hact : ∀ b, op = .markActive b → (b.server p.heap).url ≠ u) :
    DownFor u (PoolOp.next p op) := by
  intro b hb hu
  rcases mem_next hp hb with hold | ⟨s, rfl, hs⟩
  · rw [next_server hp op (hp.allocated b hold)] at hu
    have hst := isDown_state.mp (hd b hold hu)
    rw [isDown_state, next_state hp op (hp.allocated b hold), hst]
    cases op with
    | markDown c => simp [stateAfter]
    | markActive c =>
      have hc : b ≠ c := fun h => hact c rfl (h ▸ hu)
      exact if_neg hc
    | add | remove | find | get | incSuccess | incFailure => rfl
  · rw [Backend.server, hs] at hu
    exact absurd hu (hadd s rfl)

end Operations

section Events

variable {hyper : UriText Uri} {w : State Uri} {e : Event} {u : Uri}

theorem event_serving (hw : Serving w.pool) (e : Event) : Serving (next hyper w e).pool := by
  apply pool_invariant hyper hw
  intro op hop
  apply next_serving hw (poolOp_isRemove hyper hop)
  rintro s rfl
  obtain ⟨t, v, -, -, rfl⟩ := poolOp_add hyper hop
  rfl

theorem run_serving (h : BackendHeap Uri) (es : List Event) :
    Serving ((workerSystem hyper).run (initial h) es).pool :=
  System.run_invariant (T := workerSystem hyper) (I := fun w => Serving w.pool)
    (P := fun _ _ => True) (fun _ e hw _ => event_serving hw e) (initial_serving h)
    (System.always_of_forall (fun _ _ _ => trivial) _)

theorem find_server {p : Pool Uri} {s : Server Uri} {b : Backend} (hf : p.find s = some b) :
    b ∈ p.inner.backends ∧ b.server p.heap = s := by
  have hs := List.find?_some hf
  exact ⟨List.mem_of_find?_eq_some hf, of_decide_eq_true hs⟩

theorem event_downFor (hw : Serving w.pool) (hd : DownFor u w.pool)
    (he : ¬ Restores hyper u e) : DownFor u (next hyper w e).pool := by
  apply pool_invariant hyper hd
  intro op hop
  refine next_downFor hw.rotating.wellFormed hd ?_ ?_
  · rintro s rfl hu
    obtain ⟨t, v, rfl, hv, rfl⟩ := poolOp_add hyper hop
    exact he (hv.trans (congrArg some hu))
  · rintro b rfl hu
    obtain ⟨t, v, rfl, hv, hf⟩ := poolOp_markActive hyper hop
    rw [(find_server hf).2] at hu
    exact he (hv.trans (congrArg some hu))

theorem dispatched_active {s : Server Uri} (hs : s ∈ dispatched w e) :
    ∃ b ∈ w.pool.inner.backends, b.isActive w.pool.heap = true ∧ s = b.server w.pool.heap := by
  cases e with
  | request =>
    obtain ⟨b, hb, rfl⟩ := List.mem_map.mp hs
    obtain ⟨q, hg, -⟩ := selected_get hb
    rcases get_cases hg with ⟨k, c, -, hc, ha, hr, -⟩ | ⟨-, hr, -⟩
    · obtain rfl := Option.some.inj hr
      exact ⟨b, List.mem_of_getElem? hc, ha, rfl⟩
    · cases hr
  | message | complete => cases hs

theorem silent_of_downFor (hw : Serving w.pool) (hd : DownFor u w.pool) :
    SilentFor hyper u w := by
  intro mid hv hmid
  induction mid generalizing w with
  | nil => simp
  | cons e mid ih =>
    intro s hs
    rcases List.mem_append.mp hs with hs | hs
    · obtain ⟨b, hb, ha, rfl⟩ := dispatched_active hs
      intro hu
      exact (isDown_iff.mp (hd b hb hu)) ha
    · exact ih (event_serving hw e) (event_downFor hw hd (hmid e (by simp))) hv.2
        (fun a ha => hmid a (by simp [ha])) s hs

theorem requests_run (hyper : UriText Uri) (w : State Uri) (n : ℕ) :
    ((workerSystem hyper).Valid w (List.replicate n .request) ↔
      (poolSystem Uri).Valid w.pool (List.replicate n .get)) ∧
    (workerSystem hyper).observe dispatched w (List.replicate n .request) =
      (selections w.pool n).map fun b => b.server w.pool.heap := by
  induction n generalizing w with
  | zero => exact ⟨Iff.rfl, rfl⟩
  | succ n ih =>
    have hpool : (next hyper w .request).pool = PoolOp.next w.pool .get :=
      pool_next hyper w .request
    obtain ⟨hvalid, hsent⟩ := ih (next hyper w .request)
    rw [hpool] at hvalid hsent
    rw [(next_get_heap w.pool).1] at hsent
    refine ⟨and_congr Iff.rfl hvalid, ?_⟩
    exact (congrArg (dispatched w .request ++ ·) hsent).trans List.map_append.symm

theorem exists_dispatched (hyper : UriText Uri) (hw : Serving w.pool) {b : Backend}
    (hb : b ∈ w.pool.inner.backends) (ha : b.isActive w.pool.heap = true) :
    ∃ n, (workerSystem hyper).Valid w (List.replicate n .request) ∧
      b.server w.pool.heap ∈
        (workerSystem hyper).observe dispatched w (List.replicate n .request) := by
  have hsel := (selections_perm hw.rotating).mem_iff.mpr (List.mem_filter.mpr ⟨hb, ha⟩)
  obtain ⟨hvalid, hsent⟩ := requests_run hyper w (actives w.pool).length
  refine ⟨_, hvalid.mpr (window_holds hw.rotating le_rfl).valid, ?_⟩
  rw [hsent]
  exact List.mem_map_of_mem hsel

theorem downFor_of_silent (hw : Serving w.pool) (hs : SilentFor hyper u w) :
    DownFor u w.pool := by
  intro b hb hu
  by_contra hdown
  have ha : b.isActive w.pool.heap = true := by
    by_contra ha
    exact hdown (isDown_iff.mpr ha)
  obtain ⟨n, hvalid, hsent⟩ := exists_dispatched hyper hw hb ha
  refine hs _ hvalid ?_ _ hsent hu
  intro e he
  rw [List.eq_of_mem_replicate he]
  exact id

theorem silent_iff (hw : Serving w.pool) : SilentFor hyper u w ↔ DownFor u w.pool :=
  ⟨downFor_of_silent hw, silent_of_downFor hw⟩

theorem find_head {p : Pool Uri} (hp : Serving p) (u : Uri) :
    p.find { url := u, mapHost := true } =
      (p.inner.backends.filter fun b => (b.server p.heap).url = u).head? := by
  have hsame : ∀ b ∈ p.inner.backends,
      decide (b.server p.heap = { url := u, mapHost := true }) =
        decide ((b.server p.heap).url = u) := by
    intro b hb
    refine decide_eq_decide.mpr ⟨fun h => by rw [h], fun h => ?_⟩
    have hmap := hp.mapped b hb
    cases hs : b.server p.heap
    rw [hs] at h hmap
    subst h
    subst hmap
    rfl
  rw [← List.filter_congr hsame, List.head?_filter]
  rfl

theorem isDown_markDown {p : Pool Uri} (hp : WellFormed p) {b : Backend}
    (hb : b ∈ p.inner.backends) (c : Backend) :
    b.isDown (PoolOp.next p (.markDown c)).heap = true ↔ b = c ∨ b.isDown p.heap = true := by
  rw [isDown_state, isDown_state, next_state hp _ (hp.allocated b hb), stateAfter]
  by_cases hbc : b = c <;> simp [hbc]

/-- The handler finds the first backend of the url and marks that one alone. -/
theorem marked_downFor_iff {t : String} (ht : hyper.fromStr t = some u) (hw : Serving w.pool) :
    DownFor u (next hyper w (.message (.markServerDown t))).pool ↔ LaterDown u w.pool := by
  have hpool : (next hyper w (.message (.markServerDown t))).pool =
      (((w.pool.find { url := u, mapHost := true }).map PoolOp.markDown).map
        (PoolOp.next w.pool)).getD w.pool := by
    rw [pool_next]
    simp [poolOp, ht]
  have hnd : (w.pool.inner.backends.filter fun b => (b.server w.pool.heap).url = u).Nodup :=
    hw.rotating.wellFormed.nodup.filter _
  have hmem : ∀ b, b ∈ w.pool.inner.backends ∧ (b.server w.pool.heap).url = u ↔
      b ∈ w.pool.inner.backends.filter fun b => (b.server w.pool.heap).url = u := by
    intro b; simp
  have hdown : DownFor u w.pool ↔
      ∀ b ∈ w.pool.inner.backends.filter fun b => (b.server w.pool.heap).url = u,
        b.isDown w.pool.heap = true := by simp [DownFor]
  rw [hpool, find_head hw, LaterDown]
  cases hl : w.pool.inner.backends.filter fun b => (b.server w.pool.heap).url = u with
  | nil => simpa [hl] using hdown
  | cons c rest =>
    rw [hl] at hnd
    obtain ⟨hc, -⟩ := List.nodup_cons.mp hnd
    change DownFor u (PoolOp.next w.pool (.markDown c)) ↔ ∀ b ∈ rest, b.isDown w.pool.heap = true
    have hwf := hw.rotating.wellFormed
    constructor
    · intro hd b hb
      obtain ⟨hin, hu⟩ := (hmem b).mpr (hl ▸ List.mem_cons_of_mem c hb)
      have hu' : (b.server (PoolOp.next w.pool (.markDown c)).heap).url = u := by
        rw [next_server hwf _ (hwf.allocated b hin), hu]
      rcases (isDown_markDown hwf hin c).mp (hd b hin hu') with rfl | h
      · exact absurd hb hc
      · exact h
    · intro hrest b hin hu
      have hin : b ∈ w.pool.inner.backends := hin
      rw [next_server hwf _ (hwf.allocated b hin)] at hu
      have hb := (hmem b).mp ⟨hin, hu⟩
      rw [hl] at hb
      apply (isDown_markDown hwf hin c).mpr
      rcases List.mem_cons.mp hb with h | h
      · exact Or.inl h
      · exact Or.inr (hrest b h)

end Events

/-- The messages of a run that mark a server down meet all of its backends but the first
one down already. -/
def MeetsLaterDown (hyper : UriText Uri) (w : State Uri) : Event → Prop
  | .message (.markServerDown t) => ∀ u, hyper.fromStr t = some u → LaterDown u w.pool
  | _ => True

/-- After `mark_server_down` of a url a worker is silent for it until it is restored if and
only if every backend of the url but the first is down already; so it is, throughout a run
all of whose `mark_server_down` messages meet such a pool. -/
theorem silent_after_down_iff (hyper : UriText Uri) (h : BackendHeap Uri) :
    (∀ pre t u, hyper.fromStr t = some u →
      let w := (workerSystem hyper).run (initial h) pre
      (SilentFor hyper u (next hyper w (.message (.markServerDown t))) ↔
        LaterDown u w.pool)) ∧
    (∀ es, (workerSystem hyper).Valid (initial h) es →
      (workerSystem hyper).Always (MeetsLaterDown hyper) (initial h) es →
      ∀ pre t mid post u, es = pre ++ .message (.markServerDown t) :: (mid ++ .request :: post) →
        hyper.fromStr t = some u → (∀ e ∈ mid, ¬ Restores hyper u e) →
        ∀ s ∈ dispatched ((workerSystem hyper).run (initial h)
          (pre ++ .message (.markServerDown t) :: mid)) .request, s.url ≠ u) := by
  have hiff : ∀ pre t u, hyper.fromStr t = some u →
      let w := (workerSystem hyper).run (initial h) pre
      (SilentFor hyper u (next hyper w (.message (.markServerDown t))) ↔
        LaterDown u w.pool) := by
    intro pre t u ht w
    have hw : Serving w.pool := run_serving h pre
    exact (silent_iff (event_serving hw _)).trans (marked_downFor_iff ht hw)
  refine ⟨hiff, ?_⟩
  rintro es hv hmeets pre t mid post u rfl ht hmid s hs
  have hlater := System.always_at hmeets u ht
  obtain ⟨-, -, hvrest⟩ := ((workerSystem hyper).always_append _ _ _ _).mp hv
  have hsilent := (hiff pre t u ht).mpr hlater (mid ++ [.request])
  have hvmid : (workerSystem hyper).Valid
      (next hyper ((workerSystem hyper).run (initial h) pre) (.message (.markServerDown t)))
      (mid ++ [.request]) := by
    have hsplit := ((workerSystem hyper).always_append _ _ _ _).mp hvrest
    exact ((workerSystem hyper).always_append _ _ _ _).mpr
      ⟨hsplit.1, hsplit.2.1, trivial⟩
  refine hsilent hvmid ?_ s ?_
  · intro e he
    rcases List.mem_append.mp he with he | he
    · exact hmid e he
    · rw [List.mem_singleton.mp he]
      exact id
  · rw [System.run_append] at hs
    rw [System.observe_append, System.observe_cons, System.observe_nil, List.append_nil]
    exact List.mem_append_right _ hs

def plainUrl : String := "http://127.0.0.1:6000"

theorem silent_after_down_once :
    SilentFor plainText plainUrl (next plainText ((workerSystem plainText).run (initial blankHeap)
      [.message (.addServer plainUrl), .request, .complete 0 (.response 200)])
      (.message (.markServerDown plainUrl))) :=
  ((silent_after_down_iff plainText blankHeap).1
    [.message (.addServer plainUrl), .request, .complete 0 (.response 200)] plainUrl plainUrl
    rfl).mpr (by decide)

def routedOps : List Event :=
  [.message (.addServer plainUrl), .request, .complete 0 (.response 200),
    .message (.addServer plainUrl), .message (.markServerDown plainUrl)]

theorem down_server_routed :
    (workerSystem plainText).Valid (initial blankHeap) (routedOps ++ [.request]) ∧
    dispatched ((workerSystem plainText).run (initial blankHeap) routedOps) .request =
      [{ url := plainUrl, mapHost := true }] := by decide

end WorkerRouting
