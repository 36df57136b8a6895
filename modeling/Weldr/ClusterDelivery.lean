import Weldr.ClusterChannels
import Weldr.RouteSafety

/-! What can be said of every run of the whole, however slow, late or cut off its workers
are: nobody is told what did not happen, nothing is told twice or out of order, and no
message is more than a worker can handle. -/
namespace ClusterDelivery

open BackendPool TransitionSystems RequestTargets SubscriberProtocol PoolServerSet Publisher
  PublisherDelivery ManagerProcess ReplicaAgreement RouteSafety WorkerReplica Cluster
  ClusterChannels

section Publisher

variable {W Uri : Type} [DecidableEq W] {f : W → Option ℕ} {done : W → ℕ} {s : State W}

theorem sentFor_publication (hyper : UriText Uri) (hs : Linked f done s) (i : W)
    (p : Publication Uri) {order : List ℕ} (ho : order.Perm s.subscribers.keys) :
    ∃ l, sentFor i (s.publication hyper order p) = sentFor i s ++ l ∧
      l.Sublist [p.request hyper] := by
  have hnext := linked_next hyper hs (e := .publish p order) trivial
  change Linked f done (s.publication hyper order p) at hnext
  cases hi : f i with
  | none =>
    refine ⟨[], ?_, List.nil_sublist _⟩
    rw [sentFor_of_unknown hnext hi, sentFor_of_unknown hs hi, List.append_nil]
  | some id =>
    refine ⟨sentNow hyper id s (.publish p order), ?_, ?_⟩
    · rw [sentFor_eq_sentTo hnext hi, sentFor_eq_sentTo hs hi]
      exact sentTo_next hyper id (e := .publish p order) ho
    · refine (sentNow_sublist hyper id s (.publish p order)).trans ?_
      simp only [publishedTo]
      split
      · exact List.Sublist.refl _
      · exact List.nil_sublist _

theorem sentFor_publications (hyper : UriText Uri) (hs : Linked f done s) (i : W) {order : List ℕ}
    (ho : order.Perm s.subscribers.keys) (ps : List (Publication Uri × Pool Uri)) :
    ∃ l, sentFor i (ps.foldl (fun s p => s.publication hyper order p.1) s) = sentFor i s ++ l ∧
      l.Sublist (ps.map fun p => p.1.request hyper) := by
  induction ps generalizing s with
  | nil => exact ⟨[], by simp, List.nil_sublist _⟩
  | cons p ps ih =>
    obtain ⟨l, hl, hsub⟩ := sentFor_publication hyper hs i p.1 ho
    have hnext : Linked f done (s.publication hyper order p.1) :=
      linked_next hyper hs (e := .publish p.1 order) trivial
    have hkeys : order.Perm (s.publication hyper order p.1).subscribers.keys := by
      rw [State.publication_eq]
      exact ho.trans (keys_publish s _ order).symm
    obtain ⟨m, hm, hsub'⟩ := ih hnext hkeys
    refine ⟨l ++ m, ?_, ?_⟩
    · rw [List.foldl_cons, hm, hl, List.append_assoc]
    · exact hsub.append hsub'

omit [DecidableEq W] in
theorem sent_quiet (hyper : UriText Uri) {e : Publisher.Event W Uri}
    (he : ∀ p order, e ≠ .publish p order) : (Publisher.next hyper s e).sent = s.sent := by
  cases e with
  | publish p order => exact absurd rfl (he p order)
  | subscribe params => cases params <;> rfl
  | complete k answer =>
    simp only [Publisher.next, State.complete]
    cases s.spawned[k]? with
    | none => rfl
    | some r =>
      cases answer with
      | err => rfl
      | ok =>
        simp only [State.callback]
        cases s.subscribers.lookup r.idx <;> rfl
  | drop i =>
    simp only [Publisher.next, State.dropSubscription]
    split <;> rfl

end Publisher

section Whole

variable {W Uri H : Type} [DecidableEq W] [DecidableEq Uri] [DecidableEq H]

def core (W : Type) {Uri H : Type} [DecidableEq W] [DecidableEq Uri] [DecidableEq H]
    (S : Setting Uri H) : Projection (clusterSystem W S) (coreSystem S) :=
  (corePart W S).comp (managerPart W S)

def publishedAt (S : Setting Uri H) (C : Cluster.State W Uri H) :
    Cluster.Event W → List (Publication Uri)
  | .manager m => ManagerPublisher.publishedIn S C.manager m
  | .deliver _ | .request _ | .complete _ _ _ => []

variable {S : Setting Uri H} {C : Cluster.State W Uri H}

theorem publications_run {es : List (Cluster.Event W)} (hv : (clusterSystem W S).Valid C es) :
    publications S C.manager.core ((core W S).runEvents C es) =
      (clusterSystem W S).observe (publishedAt S) C es := by
  rw [publications, System.map_observe]
  refine ((core W S).observe_run _ hv).trans ?_
  refine System.observe_congr (System.always_of_forall ?_ C)
  intro e _ C
  cases e with
  | manager m => cases m <;> first | rfl | exact List.append_nil _
  | deliver | request | complete => rfl

variable [Fintype W]

theorem sentFor_step (hC : Consistent C) {e : Cluster.Event W} (he : Cluster.Enabled S C e)
    (i : W) :
    ∃ l, sentFor i (Cluster.next S C e).manager.publisher =
        sentFor i C.manager.publisher ++ l ∧
      l.Sublist ((publishedAt S C e).map fun p => p.request S.hyper) := by
  have hquiet : (Cluster.next S C e).manager.publisher.sent = C.manager.publisher.sent →
      ∃ l, sentFor i (Cluster.next S C e).manager.publisher =
        sentFor i C.manager.publisher ++ l ∧
      l.Sublist ((publishedAt S C e).map fun p => p.request S.hyper) := by
    intro hsent
    refine ⟨[], ?_, List.nil_sublist _⟩
    rw [List.append_nil, sentFor, hsent, sentFor]
  cases e with
  | manager m =>
    cases m with
    | manager e order =>
      obtain ⟨l, hl, hsub⟩ :=
        sentFor_publications S.hyper hC.linked i he.1.2 (published S C.manager.core e)
      refine ⟨l, hl, ?_⟩
      rw [publishedAt, ManagerPublisher.publishedIn, List.map_map]
      exact hsub
    | subscribe params => exact hquiet (sent_quiet S.hyper (e := .subscribe params) (by simp))
    | complete k answer => exact hquiet (sent_quiet S.hyper (e := .complete k answer) (by simp))
    | drop id => exact hquiet (sent_quiet S.hyper (e := .drop id) (by simp))
  | deliver | request | complete => exact hquiet (by rw [(next_worker S C (by simp)).1])

/-- What is sent to a worker is a part of what is published, in order and each once. -/
theorem sentFor_published (hW : Fintype.card W < 2 ^ 64) (hC : Consistent C)
    {es : List (Cluster.Event W)} (hv : (clusterSystem W S).Valid C es) (i : W) :
    ∃ l, sentFor i ((clusterSystem W S).run C es).manager.publisher =
        sentFor i C.manager.publisher ++ l ∧
      l.Sublist ((publications S C.manager.core ((core W S).runEvents C es)).map
        fun p => p.request S.hyper) := by
  rw [publications_run hv]
  induction es generalizing C with
  | nil => exact ⟨[], by simp, List.nil_sublist _⟩
  | cons e es ih =>
    obtain ⟨l, hl, hsub⟩ := sentFor_step hC hv.1 i
    obtain ⟨m, hm, hsub'⟩ := ih (consistent_next hW hC hv.1) hv.2
    refine ⟨l ++ m, ?_, ?_⟩
    · rw [← List.append_assoc, ← hl]
      exact hm
    · rw [System.observe_cons, List.map_append]
      exact hsub.append hsub'

/-- What each worker has handled, and then what is on its way to it, over a whole run. -/
theorem handled_published (hW : Fintype.card W < 2 ^ 64) (h : BackendHeap Uri)
    (hw : W → BackendHeap Uri) {es : List (Cluster.Event W)}
    (hv : (clusterSystem W S).Valid (Cluster.initial h hw) es) (i : W) :
    (messagesOf ((workerPart W S i).runEvents (Cluster.initial h hw) es) ++
        inbox ((clusterSystem W S).run (Cluster.initial h hw) es) i).Sublist
      ((publications S (ManagerProcess.initial h)
        ((core W S).runEvents (Cluster.initial h hw) es)).map fun p => p.request S.hyper) := by
  have hstart := initial_consistent (H := H) h hw
  obtain ⟨l, hl, hsub⟩ := sentFor_published hW hstart hv i
  have hreceived := received_run hW hstart hv i
  have hnil : received (Cluster.initial h hw : Cluster.State W Uri H) i = [] := rfl
  have hnone : sentFor i (Cluster.initial h hw : Cluster.State W Uri H).manager.publisher = [] :=
    rfl
  rw [hnil, List.nil_append] at hreceived
  rw [hnone, List.nil_append] at hl
  rw [← hreceived, received_inbox, hl]
  exact hsub

theorem deliver_enabled (hrt : S.hyper.RoundTrip) (hW : Fintype.card W < 2 ^ 64)
    (h : BackendHeap Uri) (hw : W → BackendHeap Uri) {es : List (Cluster.Event W)}
    (hv : (clusterSystem W S).Valid (Cluster.initial h hw) es) {i : W}
    (hne : inbox ((clusterSystem W S).run (Cluster.initial h hw) es) i ≠ []) :
    Cluster.Enabled S ((clusterSystem W S).run (Cluster.initial h hw) es) (.deliver i) := by
  obtain ⟨r, rest, hr⟩ := List.exists_cons_of_ne_nil hne
  have hin : r ∈ inbox ((clusterSystem W S).run (Cluster.initial h hw) es) i := by
    rw [hr]; exact List.mem_cons_self
  obtain ⟨p, -, rfl⟩ := List.mem_map.mp
    ((handled_published hW h hw hv i).subset (List.mem_append_right _ hin))
  refine ⟨(i, .message (p.request S.hyper)), ?_, WorkerSubscriber.enabled_publication hrt _ p⟩
  simp [workerEvent, hr]

omit [Fintype W] in
theorem worker_rotating {h : BackendHeap Uri} {hw : W → BackendHeap Uri}
    {es : List (Cluster.Event W)} (hv : (clusterSystem W S).Valid (Cluster.initial h hw) es)
    (i : W) : PoolFairness.Rotating
      (((clusterSystem W S).run (Cluster.initial h hw) es).node i).worker.pool := by
  have hworker := (workerPart W S i).state_run hv
  change (((clusterSystem W S).run (Cluster.initial h hw) es).node i).worker = _ at hworker
  rw [hworker]
  exact WorkerSubscriber.run_rotating S.hyper (WorkerRouting.initial_serving (hw i)).rotating _

/-- The servers of a worker are servers of the manager, whatever it missed. -/
theorem worker_servers (hrt : S.hyper.RoundTrip) (hW : Fintype.card W < 2 ^ 64)
    (h : BackendHeap Uri) (hw : W → BackendHeap Uri) {es : List (Cluster.Event W)}
    (hv : (clusterSystem W S).Valid (Cluster.initial h hw) es) (i : W) :
    let C := (clusterSystem W S).run (Cluster.initial h hw) es
    (C.node i).worker.pool.servers ⊆ C.manager.core.pool.servers := by
  intro C s hs
  have hcore : C.manager.core = _ := (core W S).state_run hv
  have hworker : (C.node i).worker = _ := (workerPart W S i).state_run hv
  obtain ⟨b, hb, rfl⟩ := mem_servers.mp hs
  rw [hworker] at hb ⊢
  obtain ⟨t, u, hin, hu, hserver⟩ := run_addedBy (hw i) _ b hb
  rw [hcore]
  refine (ManagerPool.mem_servers_initial h _ _).mpr ⟨u, ?_, hserver⟩
  have hmessage : Request.addServer t ∈
      messagesOf ((workerPart W S i).runEvents (Cluster.initial h hw) es) :=
    List.mem_filterMap.mpr ⟨_, hin, rfl⟩
  obtain ⟨p, hp, hpt⟩ := List.mem_map.mp
    ((handled_published hW h hw hv i).subset (List.mem_append_left _ hmessage))
  cases p with
  | newServer v =>
    obtain rfl : S.hyper.display v = t := Request.addServer.inj hpt
    obtain rfl : v = u := Option.some.inj ((hrt v).symm.trans hu)
    have hadded := mem_added.mpr hp
    rwa [added_publications] at hadded
  | serverStateDown | serverStateActive => cases hpt

theorem dispatched_servers (hrt : S.hyper.RoundTrip) (hW : Fintype.card W < 2 ^ 64)
    (h : BackendHeap Uri) (hw : W → BackendHeap Uri) {es : List (Cluster.Event W)}
    (hv : (clusterSystem W S).Valid (Cluster.initial h hw) es) (i : W) :
    let C := (clusterSystem W S).run (Cluster.initial h hw) es
    ∀ s ∈ WorkerSubscriber.dispatched (C.node i).worker .request,
      s ∈ C.manager.core.pool.servers := by
  intro C s hs
  obtain ⟨b, hb, -, rfl⟩ := WorkerRouting.dispatched_active hs
  exact worker_servers hrt hW h hw hv i (mem_servers.mpr ⟨b, hb, rfl⟩)

/-- Every run of the whole, whatever is late or lost in it: what a worker has handled, and
then what is on its way to it, is a part of what the manager published, in order and nothing
twice; the worker's servers are servers of the manager's pool, and a request goes to one of
these; and a message that is on its way never makes the worker panic. -/
theorem delivery_safe (S : Setting Uri H) (hrt : S.hyper.RoundTrip)
    (hW : Fintype.card W < 2 ^ 64) (h : BackendHeap Uri) (hw : W → BackendHeap Uri)
    (es : List (Cluster.Event W)) (hv : (clusterSystem W S).Valid (Cluster.initial h hw) es)
    (i : W) :
    let C := (clusterSystem W S).run (Cluster.initial h hw) es
    (messagesOf ((workerPart W S i).runEvents (Cluster.initial h hw) es) ++ inbox C i).Sublist
      ((publications S (ManagerProcess.initial h)
        ((core W S).runEvents (Cluster.initial h hw) es)).map fun p => p.request S.hyper) ∧
    (C.node i).worker.pool.servers ⊆ C.manager.core.pool.servers ∧
    (∀ s ∈ WorkerSubscriber.dispatched (C.node i).worker .request,
      s ∈ C.manager.core.pool.servers) ∧
    (inbox C i ≠ [] → Cluster.Enabled S C (.deliver i)) := by
  intro C
  exact ⟨handled_published hW h hw hv i, worker_servers hrt hW h hw hv i,
    dispatched_servers hrt hW h hw hv i, deliver_enabled hrt hW h hw hv⟩

def cutOff : List (Cluster.Event Bool) :=
  [.manager (.subscribe (some false)), .manager (.manager (post "http://a") [0]),
    .manager (.complete 0 .err), .deliver false, .manager (.manager (post "http://b") []),
    .request false]

theorem delivery_safe_cutOff :
    let C := (clusterSystem Bool (knownUrls ["http://a", "http://b"])).run
      (Cluster.initial blankHeap fun _ => blankHeap) cutOff
    (C.node false).worker.pool.servers ⊆ C.manager.core.pool.servers :=
  (delivery_safe (knownUrls ["http://a", "http://b"]) (fun _ => rfl) (by decide) blankHeap
    (fun _ => blankHeap) cutOff (by decide) false).2.1

end Whole

end ClusterDelivery
