import Weldr.ClusterAgreement
import Weldr.CheckedPublications
import Weldr.Registration

/-! Checks and traffic. The checks of a server run in the manager and the requests of clients
arrive at the workers; what joins them are the publications in between. -/
namespace ClusterHealth

open BackendPool PoolView StreakCounters HealthPhases ManagerProcess ReplicaAgreement
  PublicationStory CheckedPublications Cluster ClusterDelivery ClusterAgreement

section Views

variable {Uri : Type} [DecidableEq Uri]

theorem count_live {v w : View Uri} (hv : (v.map Prod.fst).Nodup) (hw : w.Sublist v)
    {s : Server Uri} {st : ServerState} (hs : s ∈ w.map Prod.fst)
    (hst : stateIn v s = some st) :
    (live w).count s = if st = .active then 1 else 0 := by
  obtain ⟨x, hx, rfl⟩ := List.mem_map.mp hs
  have hone := stateIn_of_mem hv (hw.subset hx)
  obtain rfl : x.2 = st := Option.some.inj (hone.symm.trans hst)
  have hnodup : (live w).Nodup :=
    (hv.sublist (hw.map _)).sublist (List.filter_sublist.map _)
  have hmem : x.1 ∈ live w ↔ x.2 = .active := by
    constructor
    · intro hin
      obtain ⟨y, hy, he⟩ := List.mem_map.mp hin
      obtain ⟨hyw, hact⟩ := List.mem_filter.mp hy
      have hsame := stateIn_of_mem hv (hw.subset hyw)
      rw [he, hone] at hsame
      exact (Option.some.inj hsame).trans (of_decide_eq_true hact)
    · exact fun hact => List.mem_map_of_mem (List.mem_filter.mpr ⟨hx, decide_eq_true hact⟩)
  rw [hnodup.count]
  simp only [hmem]

end Views

section Results

variable {W Uri H : Type} [DecidableEq W] [DecidableEq Uri] [DecidableEq H]

def checksOf (S : Setting Uri H) (url : Uri) (C : Cluster.State W Uri H)
    (es : List (Cluster.Event W)) : List Bool :=
  (coreSystem S).observe (resultsOn url) C.manager.core ((core W S).runEvents C es)

variable {S : Setting Uri H} {h : BackendHeap Uri} {hw : W → BackendHeap Uri}
  {pre post : List (Cluster.Event W)} {i : W} {url : Uri}

omit [DecidableEq W] [DecidableEq Uri] [DecidableEq H] in
theorem posts_subscribe :
    posts S (pre ++ .manager (.subscribe (some i)) :: post) = posts S (pre ++ post) := by
  simp [posts]

theorem manager_state (hinj : Function.Injective S.hash) (hparse : Checkable S url)
    {es : List (Cluster.Event W)} (hv : (clusterSystem W S).Valid (Cluster.initial h hw) es)
    (honce : (posts S es).Nodup) (hposted : url ∈ posts S es) :
    let C := (clusterSystem W S).run (Cluster.initial h hw) es
    ((view C.manager.core.pool).map Prod.fst).Nodup ∧
      stateIn (view C.manager.core.pool) (serverOf url) =
        some ((streakSystem (rules S.config)).run fresh
          (checksOf S url (Cluster.initial h hw) es)).state := by
  intro C
  have hcore : C.manager.core = (coreSystem S).run (ManagerProcess.initial h) _ :=
    (core W S).state_run hv
  rw [← posts_run (Cluster.initial h hw)] at honce hposted
  obtain ⟨hruns, -⟩ := run_runs hinj hparse (initial_runs h) (initial_unposted h honce)
  rw [← hcore] at hruns
  have hpooled : serverOf url ∈ C.manager.core.pool.servers := by
    rw [hcore]
    exact (ManagerPool.serverOf_mem_initial h _ url).mpr hposted
  exact ⟨by rw [view_servers]; exact hruns.managed.distinct.servers, hruns.inState hpooled⟩

theorem later_known (hf : Followed S h hw pre post i) (hposted : url ∈ posts S post) :
    let P := (clusterSystem W S).run (Cluster.initial h hw) pre
    let C := (clusterSystem W S).run (joinedBy S P i) post
    serverOf url ∈ ((view C.manager.core.pool).drop
      P.manager.core.pool.inner.backends.length).map Prod.fst := by
  intro P C
  obtain ⟨-, -, hpool, hnodup, hnew⟩ := manager_history hf.valid hf.once
  have hadded : added (publications S (joinedBy S P i).manager.core
      ((core W S).runEvents (joinedBy S P i) post)) = posts S post := by
    rw [added_publications, posts_run]
  have hservers := ServerListing.servers_replay hnodup hnew
  rw [hadded, ← hpool] at hservers
  have hlen : P.manager.core.pool.inner.backends.length =
      ((view P.manager.core.pool).map Prod.fst).length := by simp [view]
  rw [List.map_drop, hservers, hlen, List.drop_left]
  exact List.mem_map_of_mem hposted

variable [Fintype W]

end Results

/-- The second of three servers fails three checks; that it is down is still on its way. -/
def failingJoin : List (Cluster.Event Bool) :=
  [.manager (.manager (post "http://b") [0, 1]), .manager (.manager (post "http://c") [1, 0]),
    .deliver true, .manager (.manager .timer [0, 1]), .manager (.manager .timer [0, 1]),
    .manager (.manager .timer [0, 1]), .manager (.manager (.checked 1 .error) [0, 1]),
    .request true, .manager (.manager (.checked 3 (.response 500)) [0, 1]), .deliver true,
    .manager (.manager (.checked 5 .error) [1, 0])]

theorem failing_followed : Followed threeUrls blankHeap (fun _ : Bool => blankHeap) beforeJoin
    failingJoin true := ⟨by decide, by decide, by decide, by decide⟩

example :
    let C := (clusterSystem Bool threeUrls).run (Cluster.initial blankHeap fun _ => blankHeap)
      (beforeJoin ++ .manager (.subscribe (some true)) :: failingJoin)
    live (view (C.node true).worker.pool) = [serverOf "http://b", serverOf "http://c"] ∧
      live (view (Cluster.next threeUrls C (.deliver true) |>.node true).worker.pool) =
        [serverOf "http://c"] := by decide

end ClusterHealth
