import Weldr.ClusterAgreement

/-! A worker whose entry left the map. One `Err`, or the drop of its subscription, is enough for
that, and since a worker subscribes only once, it stays as it is from then on. -/
namespace ClusterCutOff

open BackendPool TransitionSystems PoolView PublisherAccounting ManagerProcess ReplicaAgreement
  WorkerReplica Cluster ClusterChannels ClusterDelivery ClusterAgreement

section Workers

variable {Uri : Type} [DecidableEq Uri] {w : WorkerSubscriber.State Uri}

theorem view_silent (hyper : RequestTargets.UriText Uri) (hw : PoolFairness.Rotating w.pool)
    {es : List WorkerSubscriber.Event} (hes : messagesOf es = []) :
    view ((WorkerSubscriber.workerSystem hyper).run w es).pool = view w.pool := by
  induction es generalizing w with
  | nil => rfl
  | cons e es ih =>
    have he : ∀ r, e ≠ .message r := by
      rintro r rfl
      cases hes
    rw [messagesOf_traffic he] at hes
    exact (ih (WorkerSubscriber.next_rotating hyper hw e) hes).trans
      (view_quiet hyper hw.wellFormed he)

end Workers

section Results

variable {W Uri H : Type} [DecidableEq W] [DecidableEq Uri] [DecidableEq H] [Fintype W]
  {S : Setting Uri H} {C : Cluster.State W Uri H} {i : W} {id : ℕ} {post : List (Cluster.Event W)}

/-- Nothing is sent to a worker whose entry is gone, and the entry does not come back. -/
theorem nothing_sent (hW : Fintype.card W < 2 ^ 64) (hC : Consistent C)
    (hv : (clusterSystem W S).Valid C post) (hsub : (C.node i).subscription = some id)
    (hout : id ∉ C.manager.publisher.subscribers) :
    let D := (clusterSystem W S).run C post
    sentFor i D.manager.publisher = sentFor i C.manager.publisher ∧
      id ∉ D.manager.publisher.subscribers := by
  intro D
  have hD : Consistent D := run_consistent hW hC hv
  have hpublisher : D.manager.publisher = _ := (channel W S).state_run hv
  have hvalid := (channel W S).valid_run hv
  have hid : id < members C := hC.known.nextId ▸ hC.linked.below i id hsub
  have hroom : members C + ((channel W S).runEvents C post).countP isSubscription < 2 ^ 64 := by
    rw [← members_run hv]
    exact (Finset.card_le_univ _).trans_lt hW
  constructor
  · rw [sentFor_eq_sentTo hD.linked (subscription_run hsub hv),
      sentFor_eq_sentTo hC.linked hsub, hpublisher]
    exact gone_run S.hyper hC.known hid hout hvalid hroom
  · rw [hpublisher]
    exact gone_stays S.hyper hC.known hid hout hvalid hroom

end Results

def beforeCut : List (Cluster.Event Bool) :=
  [.manager (.subscribe (some false)), .manager (.manager (post "http://a") [0]),
    .deliver false, .manager (.complete 0 .err)]

def afterCut : List (Cluster.Event Bool) :=
  [.manager (.manager .timer []), .manager (.manager .timer []), .manager (.manager .timer []),
    .manager (.manager (.checked 0 .error) []), .manager (.manager (.checked 0 .error) []),
    .request false, .manager (.manager (.checked 0 .error) []),
    .manager (.manager (post "http://b") []), .request false]

/-- The manager has the server down, and the worker sends it every request. -/
example :
    let C := (clusterSystem Bool threeUrls).run (Cluster.initial blankHeap fun _ => blankHeap)
      (beforeCut ++ afterCut)
    view C.manager.core.pool = [(serverOf "http://a", .down), (serverOf "http://b", .active)] ∧
      WorkerSubscriber.dispatched (C.node false).worker .request = [serverOf "http://a"] := by
  decide

end ClusterCutOff
