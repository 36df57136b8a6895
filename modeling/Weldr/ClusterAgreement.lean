import Weldr.ClusterDelivery

/-! How far a worker is behind. A worker whose entry stays in the map and whose window was
open at every publication lacks what is on its way to it and nothing else, and that is no
more than the window. -/
namespace ClusterAgreement

open BackendPool TransitionSystems RequestTargets SubscriberProtocol PoolView Publisher
  PublisherDelivery PublisherAccounting SubscriberLines ManagerProcess ManagerRecords
  ReplicaAgreement WorkerReplica Cluster ClusterChannels ClusterDelivery

section Views

variable {Uri : Type} [DecidableEq Uri]

theorem setState_append (s : Server Uri) (st : ServerState) (v w : View Uri) :
    setState s st (v ++ w) = setState s st v ++ setState s st w := List.map_append

theorem replay_behind_mark {ps : List (Publication Uri)}
    (ih : ∀ {v : View Uri}, (∀ u ∈ added ps, serverOf u ∉ v.map Prod.fst) →
      ∀ w, (replay applied (v ++ w) ps).drop v.length = replay applied w ps)
    {v : View Uri} (hnew : ∀ u ∈ added ps, serverOf u ∉ v.map Prod.fst) (s : Server Uri)
    (st : ServerState) (w : View Uri) :
    (replay applied (setState s st (v ++ w)) ps).drop v.length =
      replay applied (setState s st w) ps := by
  have hlen : (setState s st v).length = v.length := List.length_map _
  rw [setState_append, ← hlen]
  apply ih
  rw [setState_servers]
  exact hnew

/-- Servers that the log does not add stay in front; the rest is as if they were not there. -/
theorem replay_behind {ps : List (Publication Uri)} {v : View Uri}
    (hnew : ∀ u ∈ added ps, serverOf u ∉ v.map Prod.fst) (w : View Uri) :
    (replay applied (v ++ w) ps).drop v.length = replay applied w ps := by
  induction ps generalizing v w with
  | nil => exact List.drop_left
  | cons p ps ih =>
    cases p with
    | newServer u =>
      have hu : serverOf u ∉ v.map Prod.fst := hnew u (by simp [added])
      have hrest := ih (v := v) (fun a ha => hnew a (by
        rw [added, List.filterMap_cons]
        exact List.mem_cons_of_mem _ ha)) (applied w (.newServer u))
      have hstep : applied (v ++ w) (.newServer u) = v ++ applied w (.newServer u) := by
        by_cases hw : serverOf u ∈ w.map Prod.fst
        · simp only [applied, if_pos hw]
          rw [if_pos (by rw [List.map_append]; exact List.mem_append_right _ hw)]
        · simp only [applied, if_neg hw]
          rw [if_neg, List.append_assoc]
          rw [List.map_append, List.mem_append]
          exact not_or.mpr ⟨hu, hw⟩
      change (replay applied (applied (v ++ w) (.newServer u)) ps).drop v.length = _
      rw [hstep]
      exact hrest
    | serverStateDown u => exact replay_behind_mark ih hnew (serverOf u) .down w
    | serverStateActive u => exact replay_behind_mark ih hnew (serverOf u) .active w

end Views

section Presence

variable {W Uri : Type} {s : State W}

def requestsOf (hyper : UriText Uri) : Publisher.Event W Uri → List Request
  | .publish p _ => [p.request hyper]
  | .subscribe _ | .complete _ _ | .drop _ => []

/-- An id that left the map does not come back. -/
theorem gone_stays (hyper : UriText Uri) {n id : ℕ} (hs : Known n s) (hid : id < n)
    (hout : id ∉ s.subscribers) {es : List (Publisher.Event W Uri)}
    (hv : (publisherSystem W hyper).Valid s es) (hn : n + es.countP isSubscription < 2 ^ 64) :
    id ∉ ((publisherSystem W hyper).run s es).subscribers := by
  induction es generalizing n s with
  | nil => exact hout
  | cons e es ih =>
    rw [List.countP_cons] at hn
    have hstep := known_next hyper hs (e := e) (by intro h; simp only [h, if_true] at hn; omega)
    have hout' := (gone_next hyper hs hid hout hv.1).1
    by_cases hsub : isSubscription e = true
    · rw [if_pos hsub] at hn hstep
      exact ih hstep (by omega) hout' hv.2 (by omega)
    · rw [if_neg hsub] at hn hstep
      exact ih hstep hid hout' hv.2 (by omega)

theorem present_run (hyper : UriText Uri) {n id : ℕ} (hs : Known n s) (hid : id < n)
    {es : List (Publisher.Event W Uri)} (hv : (publisherSystem W hyper).Valid s es)
    (hn : n + es.countP isSubscription < 2 ^ 64)
    (hin : id ∈ ((publisherSystem W hyper).run s es).subscribers) :
    (publisherSystem W hyper).Always (fun s _ => id ∈ s.subscribers) s es := by
  induction es generalizing n s with
  | nil => trivial
  | cons e es ih =>
    have hhere : id ∈ s.subscribers := by
      by_contra hout
      exact gone_stays hyper hs hid hout hv hn hin
    rw [List.countP_cons] at hn
    have hstep := known_next hyper hs (e := e) (by intro h; simp only [h, if_true] at hn; omega)
    refine ⟨hhere, ?_⟩
    by_cases hsub : isSubscription e = true
    · rw [if_pos hsub] at hn hstep
      exact ih hstep (by omega) hv.2 (by omega) hin
    · rw [if_neg hsub] at hn hstep
      exact ih hstep hid hv.2 (by omega) hin

/-- A worker that is in the map and never passed over is sent every publication. -/
theorem sentTo_of_open (hyper : UriText Uri) {id : ℕ} {es : List (Publisher.Event W Uri)}
    (hv : (publisherSystem W hyper).Valid s es)
    (hin : (publisherSystem W hyper).Always (fun s _ => id ∈ s.subscribers) s es)
    (hopen : (publisherSystem W hyper).Always (WindowOpen id) s es) :
    sentTo id ((publisherSystem W hyper).run s es) =
      sentTo id s ++ (publisherSystem W hyper).observe (fun _ e => requestsOf hyper e) s es := by
  rw [sentTo_run hyper id hv]
  congr 1
  have hsent : (publisherSystem W hyper).observe (sentNow hyper id) s es =
      (publisherSystem W hyper).observe (publishedTo hyper id) s es :=
    System.observe_congr (hopen.imp fun s e h => (sentNow_eq_iff hyper id s e).mpr h)
  refine hsent.trans (System.observe_congr (hin.imp fun s e h => ?_))
  cases e with
  | publish p order => exact if_pos h
  | subscribe | complete | drop => rfl

end Presence

section Whole

variable {W Uri H : Type} [DecidableEq W] [DecidableEq Uri] [DecidableEq H] {S : Setting Uri H}
  {C : Cluster.State W Uri H}

omit [DecidableEq W] [DecidableEq Uri] [DecidableEq H] in
theorem requests_published (s : State W) (order : List ℕ) (ps : List (Publication Uri × Pool Uri)) :
    (publisherSystem W S.hyper).observe (fun _ e => requestsOf S.hyper e) s
        (ps.map fun p => .publish p.1 order) = ps.map fun p => p.1.request S.hyper := by
  induction ps generalizing s with
  | nil => rfl
  | cons p ps ih => exact congrArg (p.1.request S.hyper :: ·) (ih _)

theorem requests_run {es : List (Cluster.Event W)} (hv : (clusterSystem W S).Valid C es) :
    (publisherSystem W S.hyper).observe (fun _ e => requestsOf S.hyper e) C.manager.publisher
        ((channel W S).runEvents C es) =
      (publications S C.manager.core ((core W S).runEvents C es)).map
        fun p => p.request S.hyper := by
  rw [publications_run hv, System.map_observe]
  refine ((channel W S).observe_run _ hv).trans ?_
  refine System.observe_congr (System.always_of_forall ?_ C)
  intro e _ C
  cases e with
  | manager m =>
    rw [channel_events]
    cases m with
    | manager e order =>
      refine (requests_published C.manager.publisher order _).trans ?_
      rw [publishedAt, ManagerPublisher.publishedIn, List.map_map]
      rfl
    | subscribe | complete | drop => rfl
  | deliver | request | complete => rfl

def posts (S : Setting Uri H) (es : List (Cluster.Event W)) : List Uri :=
  es.filterMap fun e => match e with
    | .manager (.manager e _) => postedBy S e
    | _ => none

theorem posts_run (C : Cluster.State W Uri H) (es : List (Cluster.Event W)) :
    ((core W S).runEvents C es).filterMap (postedBy S) = posts S es := by
  refine (System.filterMap_observe _ _ _ _ _).trans ?_
  rw [posts, ← (clusterSystem W S).observe_events _ C es]
  refine System.observe_congr (System.always_of_forall ?_ C)
  intro e _ C
  cases e with
  | manager m =>
    cases m with
    | manager e order =>
      change [e].filterMap (postedBy S) = (postedBy S e).toList
      cases hu : postedBy S e <;> simp [hu]
    | subscribe | complete | drop => rfl
  | deliver | request | complete => rfl

def joinedBy (S : Setting Uri H) (P : Cluster.State W Uri H) (i : W) : Cluster.State W Uri H :=
  Cluster.next S P (.manager (.subscribe (some i)))

/-- The views of the manager's pool over a run, one for each publication after the first. -/
def history (S : Setting Uri H) (C : Cluster.State W Uri H) (es : List (Cluster.Event W)) :
    List (View Uri) :=
  view C.manager.core.pool ::
    ((coreSystem S).observe (published S) C.manager.core ((core W S).runEvents C es)).map
      fun e => view e.2

variable {h : BackendHeap Uri} {hw : W → BackendHeap Uri} {pre post : List (Cluster.Event W)}
  {i : W}

theorem joined_fresh (hv : (clusterSystem W S).Valid (Cluster.initial h hw)
      (pre ++ .manager (.subscribe (some i)) :: post)) (honce : (posts S (pre ++ post)).Nodup) :
    let P := (clusterSystem W S).run (Cluster.initial h hw) pre
    Managed P.manager.core ∧ (coreSystem S).Always (FreshPost S) P.manager.core
      ((core W S).runEvents (joinedBy S P i) post) := by
  intro P
  have hP : P.manager.core =
      (coreSystem S).run (ManagerProcess.initial h)
        ((core W S).runEvents (Cluster.initial h hw) pre) :=
    (core W S).state_run (((clusterSystem W S).always_append _ _ _ _).mp hv).1
  have hfresh : (coreSystem S).Always (FreshPost S) (ManagerProcess.initial h)
      ((core W S).runEvents (Cluster.initial h hw) pre ++
        (core W S).runEvents (joinedBy S P i) post) := by
    have hstart : view (ManagerProcess.initial h : Core Uri H).pool = replay applied [] [] := rfl
    refine freshPost_run (initial_managed h) hstart ?_ (by simp [added])
    rw [List.filterMap_append, posts_run, posts_run]
    exact List.filterMap_append ▸ honce
  obtain ⟨hfreshpre, hfreshpost⟩ := ((coreSystem S).always_append _ _ _ _).mp hfresh
  rw [hP]
  exact ⟨(run_records (initial_managed h) hfreshpre).1, hfreshpost⟩

theorem later_unknown (hv : (clusterSystem W S).Valid (Cluster.initial h hw) pre)
    (honce : (posts S (pre ++ post)).Nodup) {u : Uri} (hu : u ∈ posts S post) :
    serverOf u ∉ (view ((clusterSystem W S).run (Cluster.initial h hw) pre).manager.core.pool).map
      Prod.fst := by
  intro hin
  have hP : ((clusterSystem W S).run (Cluster.initial h hw) pre).manager.core = _ :=
    (core W S).state_run hv
  rw [view_servers, hP] at hin
  have hposts : posts S (pre ++ post) = posts S pre ++ posts S post := List.filterMap_append
  rw [hposts, List.nodup_append] at honce
  have hearlier := (ManagerPool.serverOf_mem_initial h _ u).mp hin
  rw [posts_run] at hearlier
  exact honce.2.2 u hearlier u hu rfl

theorem manager_history (hv : (clusterSystem W S).Valid (Cluster.initial h hw)
      (pre ++ .manager (.subscribe (some i)) :: post)) (honce : (posts S (pre ++ post)).Nodup) :
    let P := (clusterSystem W S).run (Cluster.initial h hw) pre
    let Q := joinedBy S P i
    let ps := publications S Q.manager.core ((core W S).runEvents Q post)
    (∀ j ≤ ps.length, (history S Q post)[j]? =
      some (replay applied (view P.manager.core.pool) (ps.take j))) ∧
    (history S Q post).length = ps.length + 1 ∧
    view ((clusterSystem W S).run Q post).manager.core.pool =
      replay applied (view P.manager.core.pool) ps ∧
    (added ps).Nodup ∧
    ∀ u ∈ added ps, serverOf u ∉ (view P.manager.core.pool).map Prod.fst := by
  intro P Q ps
  obtain ⟨hvpre, -, hvpost⟩ := ((clusterSystem W S).always_append _ _ _ _).mp hv
  have hC : ((clusterSystem W S).run Q post).manager.core = _ := (core W S).state_run hvpost
  obtain ⟨hmanaged, hfresh⟩ := joined_fresh hv honce
  obtain ⟨-, hrecords⟩ := run_records hmanaged hfresh
  obtain ⟨hentries, hfst⟩ := entries_publications (S := S) P.manager.core
    ((core W S).runEvents Q post)
  have hsnd : (history S Q post) = view P.manager.core.pool ::
      ((coreSystem S).observe (fun c e => entries (published S c e)) P.manager.core
        ((core W S).runEvents Q post)).map Prod.snd := by
    rw [hentries, List.map_map]
    rfl
  have hlen : ps.length = ((coreSystem S).observe (fun c e => entries (published S c e))
      P.manager.core ((core W S).runEvents Q post)).length := by
    have hmap := congrArg List.length hfst
    rw [List.length_map] at hmap
    exact hmap.symm
  have hadded : added ps = posts S post := (added_publications _ _).trans (posts_run Q post)
  refine ⟨?_, ?_, ?_, ?_, ?_⟩
  · intro j hj
    rw [hsnd, hrecords.states (hlen ▸ hj), List.map_take, hfst]
    rfl
  · rw [hsnd, List.length_cons, List.length_map, hlen]
  · rw [hC]
    have hreplay := hrecords.replay_eq
    rwa [hfst] at hreplay
  · rw [hadded]
    exact honce.sublist ((List.sublist_append_right pre post).filterMap _)
  · rw [hadded]
    exact fun u hu => later_unknown hvpre honce hu

/-- A worker that joins after `pre`, has not left the map after `post`, and at no publication
in between had five requests unanswered; no url is posted twice. -/
structure Followed (S : Setting Uri H) (h : BackendHeap Uri) (hw : W → BackendHeap Uri)
    (pre post : List (Cluster.Event W)) (i : W) : Prop where
  valid : (clusterSystem W S).Valid (Cluster.initial h hw)
    (pre ++ .manager (.subscribe (some i)) :: post)
  once : (posts S (pre ++ post)).Nodup
  unskipped :
    let P := (clusterSystem W S).run (Cluster.initial h hw) pre
    (publisherSystem W S.hyper).Always (WindowOpen P.manager.publisher.nextId)
      (joinedBy S P i).manager.publisher ((channel W S).runEvents (joinedBy S P i) post)
  present :
    let P := (clusterSystem W S).run (Cluster.initial h hw) pre
    P.manager.publisher.nextId ∈
      ((clusterSystem W S).run (joinedBy S P i) post).manager.publisher.subscribers

variable [Fintype W]

/-- The channel's half: all that was published since is handled or on its way, and what is on
its way fits the window. -/
theorem followed_channel (hW : Fintype.card W < 2 ^ 64) (hf : Followed S h hw pre post i) :
    let Q := joinedBy S ((clusterSystem W S).run (Cluster.initial h hw) pre) i
    let C := (clusterSystem W S).run Q post
    sentFor i C.manager.publisher =
        (publications S Q.manager.core ((core W S).runEvents Q post)).map
          (fun p => p.request S.hyper) ∧
      (C.node i).handled ≤ (sentFor i C.manager.publisher).length ∧
      (inbox C i).length ≤ 5 := by
  intro Q C
  obtain ⟨hvpre, hvsub, hvpost⟩ := ((clusterSystem W S).always_append _ _ _ _).mp hf.valid
  change (clusterSystem W S).Valid Q post at hvpost
  have hP := run_consistent hW (initial_consistent (H := H) h hw) hvpre
  have hQ : Consistent Q := consistent_next hW hP hvsub
  have hC : Consistent C := run_consistent hW hQ hvpost
  let id := ((clusterSystem W S).run (Cluster.initial h hw) pre).manager.publisher.nextId
  have hsub : (Q.node i).subscription = some id := by
    have hnode := congrFun (joined_node ((clusterSystem W S).run (Cluster.initial h hw) pre) i) i
    rwa [Function.update_self] at hnode
  have hsubC : (C.node i).subscription = some id := subscription_run hsub hvpost
  have hstart : sentFor i Q.manager.publisher = [] := sentFor_of_unknown hP.linked hvsub.2
  have hnone : sentTo id Q.manager.publisher = [] := (sentFor_eq_sentTo hQ.linked hsub) ▸ hstart
  have hstate : C.manager.publisher = _ := (channel W S).state_run hvpost
  have hvalid := (channel W S).valid_run hvpost
  have hpresent := present_run S.hyper hQ.known (hQ.known.nextId ▸ hQ.linked.below i id hsub) hvalid
    (by rw [← members_run hvpost]; exact (Finset.card_le_univ _).trans_lt hW)
    (hstate ▸ hf.present)
  have hsent := sentTo_of_open S.hyper hvalid hpresent hf.unskipped
  rw [← hstate] at hsent
  have hall : sentFor i C.manager.publisher = _ := (sentFor_eq_sentTo hC.linked hsubC).trans hsent
  refine ⟨?_, hC.linked.handled i, ?_⟩
  · rw [hall]
    exact (congrArg (· ++ _) hnone).trans (requests_run hvpost)
  · -- the entry counts the requests without an answer, and those on the way are among them
    have hwindow := hC.linked.window i id hsubC hf.present
    rw [waiting_eq hC.linked hsubC] at hwindow
    obtain ⟨c, hc⟩ := Option.isSome_iff_exists.mp (AList.lookup_isSome.mpr hf.present)
    have hbound : (line id C.manager.publisher).unanswered ≤ 5 := (hC.balanced id c hc).2
    change C.manager.publisher.spawned.countP (fun r => r.idx = id) ≤ 5 at hbound
    rw [inbox_length]
    omega

theorem followed_view (hrt : S.hyper.RoundTrip) (hW : Fintype.card W < 2 ^ 64)
    (hf : Followed S h hw pre post i) :
    let Q := joinedBy S ((clusterSystem W S).run (Cluster.initial h hw) pre) i
    let C := (clusterSystem W S).run Q post
    view (C.node i).worker.pool = replay applied []
      ((publications S Q.manager.core ((core W S).runEvents Q post)).take (C.node i).handled) := by
  intro Q C
  have hrun : C = (clusterSystem W S).run (Cluster.initial h hw)
      (pre ++ .manager (.subscribe (some i)) :: post) := by
    rw [System.run_append]
    rfl
  have hreceived := received_run hW (initial_consistent (H := H) h hw) hf.valid i
  rw [← hrun] at hreceived
  obtain ⟨hsent, -, -⟩ := followed_channel hW hf
  have hmessages : messagesOf ((workerPart W S i).runEvents (Cluster.initial h hw)
      (pre ++ .manager (.subscribe (some i)) :: post)) =
        ((publications S Q.manager.core ((core W S).runEvents Q post)).take
          (C.node i).handled).map fun p => p.request S.hyper := by
    rw [List.map_take, ← hsent]
    exact hreceived.symm
  have hnodup := (manager_history hf.valid hf.once).2.2.2.1
  have hadded : (added ((publications S Q.manager.core ((core W S).runEvents Q post)).take
      (C.node i).handled)).Nodup := hnodup.sublist ((List.take_sublist _ _).filterMap _)
  have hstart : view (WorkerSubscriber.initial (hw i)).pool = replay applied [] [] := rfl
  have hfresh := freshMessage_run hrt (initial_replica (hw i)) hstart hadded hmessages
  have hview := (view_run hrt (initial_replica (hw i)) hfresh hmessages).2.2
  have hworker : (((clusterSystem W S).run (Cluster.initial h hw)
      (pre ++ .manager (.subscribe (some i)) :: post)).node i).worker = _ :=
    (workerPart W S i).state_run hf.valid
  rw [← hrun] at hworker
  rw [hworker]
  exact hview

omit [Fintype W] in
theorem deliver_next {r : Request} {rest : List Request} (hr : inbox C i = r :: rest) :
    (Cluster.next S C (.deliver i)).manager = C.manager ∧
      inbox (Cluster.next S C (.deliver i)) i = rest := by
  have hnext : Cluster.next S C (.deliver i) = act S.hyper C i (.message r) := by
    simp only [Cluster.next, workerEvent, hr, List.head?_cons, Option.map_some]
  rw [hnext]
  refine ⟨rfl, ?_⟩
  have hdone := congrFun (handled_act S.hyper C i (.message r)) i
  simp only [Function.update_self] at hdone
  have hinbox : inbox (act S.hyper C i (.message r)) i =
      (sentFor i C.manager.publisher).drop ((act S.hyper C i (.message r)).node i).handled := rfl
  rw [hinbox, hdone, ← List.tail_drop]
  exact congrArg List.tail hr

theorem deliver_all (hrt : S.hyper.RoundTrip) (hW : Fintype.card W < 2 ^ 64)
    {es : List (Cluster.Event W)} (hv : (clusterSystem W S).Valid (Cluster.initial h hw) es)
    {n : ℕ} (hn : (inbox ((clusterSystem W S).run (Cluster.initial h hw) es) i).length = n) :
    let C := (clusterSystem W S).run (Cluster.initial h hw) es
    let D := (clusterSystem W S).run C (List.replicate n (.deliver i))
    (clusterSystem W S).Valid C (List.replicate n (.deliver i)) ∧ D.manager = C.manager ∧
      inbox D i = [] := by
  induction n generalizing es with
  | zero => exact ⟨trivial, rfl, List.length_eq_zero_iff.mp hn⟩
  | succ n ih =>
    obtain ⟨r, rest, hr⟩ := List.exists_cons_of_length_eq_add_one hn
    have henabled := deliver_enabled hrt hW h hw hv (i := i) (by rw [hr]; simp)
    obtain ⟨hmanager, hinbox⟩ := deliver_next (S := S) hr
    have hv' : (clusterSystem W S).Valid (Cluster.initial h hw) (es ++ [.deliver i]) :=
      ((clusterSystem W S).always_append _ _ _ _).mpr ⟨hv, henabled, trivial⟩
    have hrun : (clusterSystem W S).run (Cluster.initial h hw) (es ++ [.deliver i]) =
        Cluster.next S ((clusterSystem W S).run (Cluster.initial h hw) es) (.deliver i) := by
      rw [System.run_append]
      rfl
    obtain ⟨hvalid, hsame, hempty⟩ := ih hv' (by
      rw [hrun, hinbox]
      rw [hr] at hn
      exact Nat.succ_injective hn)
    rw [hrun] at hvalid hsame hempty
    exact ⟨⟨henabled, hvalid⟩, hsame.trans hmanager, hempty⟩

omit [DecidableEq W] [DecidableEq Uri] [DecidableEq H] [Fintype W] in
theorem posts_deliver (S : Setting Uri H) (es : List (Cluster.Event W)) (n : ℕ) :
    posts S (es ++ List.replicate n (.deliver i)) = posts S es := by
  have hnone : posts S (List.replicate n (Cluster.Event.deliver i)) = [] := by
    rw [posts, List.filterMap_replicate_of_none rfl]
  rw [posts, List.filterMap_append]
  exact (congrArg (posts S es ++ ·) hnone).trans (List.append_nil _)

omit [Fintype W] in
theorem channel_deliver (C : Cluster.State W Uri H) (n : ℕ) :
    (channel W S).runEvents C (List.replicate n (.deliver i)) = [] := by
  induction n generalizing C with
  | zero => rfl
  | succ n ih => exact ih _

omit [Fintype W] in
theorem Followed.deliver {n : ℕ} (hf : Followed S h hw pre post i)
    (hn :
      let Q := joinedBy S ((clusterSystem W S).run (Cluster.initial h hw) pre) i
      let C := (clusterSystem W S).run Q post
      (clusterSystem W S).Valid C (List.replicate n (.deliver i)) ∧
        ((clusterSystem W S).run C (List.replicate n (.deliver i))).manager = C.manager) :
    Followed S h hw pre (post ++ List.replicate n (.deliver i)) i := by
  refine ⟨?_, ?_, ?_, ?_⟩
  · have hsplit := ((clusterSystem W S).always_append _ _ _ _).mp hf.valid
    refine ((clusterSystem W S).always_append _ _ _ _).mpr ⟨hsplit.1, hsplit.2.1, ?_⟩
    exact ((clusterSystem W S).always_append _ _ _ _).mpr ⟨hsplit.2.2, hn.1⟩
  · rw [← List.append_assoc, posts_deliver]
    exact hf.once
  · have hun := hf.unskipped
    intro P
    rw [Projection.runEvents_append, channel_deliver, List.append_nil]
    exact hun
  · have hpresent := hf.present
    intro P
    rw [System.run_append, hn.2]
    exact hpresent

end Whole

section Routing

variable {Uri : Type} [DecidableEq Uri]

def live (v : View Uri) : List (Server Uri) := (v.filter fun x => x.2 = .active).map Prod.fst

omit [DecidableEq Uri] in
theorem live_view (p : Pool Uri) :
    live (view p) = (PoolFairness.actives p).map fun b => b.server p.heap := by
  rw [live, view, List.filter_map, List.map_map, PoolFairness.actives]
  rfl

theorem dispatched_live (hyper : UriText Uri) {w : WorkerSubscriber.State Uri}
    (hw : PoolFairness.Rotating w.pool) :
    ((WorkerSubscriber.workerSystem hyper).observe WorkerSubscriber.dispatched w
      (List.replicate (live (view w.pool)).length .request)).Perm (live (view w.pool)) := by
  rw [(WorkerRouting.requests_run hyper w _).2, live_view, List.length_map]
  exact (PoolFairness.selections_perm hw).map _

end Routing

section Results

variable {W Uri H : Type} [DecidableEq W] [DecidableEq Uri] [DecidableEq H] [Fintype W]

theorem delivered_view {S : Setting Uri H} (hrt : S.hyper.RoundTrip)
    (hW : Fintype.card W < 2 ^ 64) {h : BackendHeap Uri} {hw : W → BackendHeap Uri}
    {pre post : List (Cluster.Event W)} {i : W} (hf : Followed S h hw pre post i) :
    let P := (clusterSystem W S).run (Cluster.initial h hw) pre
    let C := (clusterSystem W S).run (joinedBy S P i) post
    let deliveries := List.replicate (inbox C i).length (.deliver i)
    let D := (clusterSystem W S).run C deliveries
    (clusterSystem W S).Valid C deliveries ∧
      view (D.node i).worker.pool =
        (view C.manager.core.pool).drop P.manager.core.pool.inner.backends.length ∧
      PoolFairness.Rotating (D.node i).worker.pool := by
  intro P C deliveries D
  have hrun : C = (clusterSystem W S).run (Cluster.initial h hw)
      (pre ++ .manager (.subscribe (some i)) :: post) := by
    rw [System.run_append]
    rfl
  have hdeliver := deliver_all hrt hW hf.valid (n := (inbox C i).length) (by rw [← hrun])
  rw [← hrun] at hdeliver
  obtain ⟨hvalid, hmanager, hempty⟩ := hdeliver
  have hlater : Followed S h hw pre (post ++ deliveries) i :=
    hf.deliver ⟨hvalid, hmanager⟩
  have hD : (clusterSystem W S).run (joinedBy S P i) (post ++ deliveries) = D :=
    (clusterSystem W S).run_append _ _ _
  obtain ⟨hsent, hhandled, -⟩ := followed_channel hW hlater
  obtain ⟨-, -, hpool, -, hnew⟩ := manager_history hlater.valid hlater.once
  have hview : view (((clusterSystem W S).run (joinedBy S P i)
      (post ++ deliveries)).node i).worker.pool = _ :=
    followed_view hrt hW hlater
  rw [hD] at hsent hhandled hpool hview
  have hall : (publications S (joinedBy S P i).manager.core
      ((core W S).runEvents (joinedBy S P i) (post ++ deliveries))).length ≤
        (D.node i).handled := by
    have hlen := inbox_length D i
    have hsame := congrArg List.length hsent
    rw [List.length_map] at hsame
    have hzero : (inbox D i).length = 0 := List.length_eq_zero_iff.mpr hempty
    rw [hzero] at hlen
    exact hsame ▸ Nat.sub_eq_zero_iff_le.mp hlen.symm
  rw [List.take_of_length_le hall] at hview
  refine ⟨hvalid, ?_, ?_⟩
  · have hbehind := replay_behind hnew []
    rw [List.append_nil] at hbehind
    have hmview : view D.manager.core.pool = view C.manager.core.pool := by rw [hmanager]
    rw [hview, ← hbehind, ← hmview, hpool]
    congr 1
    exact List.length_map _
  · have hwhole : D = (clusterSystem W S).run (Cluster.initial h hw)
        (pre ++ .manager (.subscribe (some i)) :: (post ++ deliveries)) := by
      rw [System.run_append, ← hD]
      rfl
    rw [hwhole]
    exact worker_rotating hlater.valid i

/-- Bounded staleness. In every run of the whole that posts no url twice, whatever its other
workers do, the servers and states of a followed worker are those that the manager's pool had
so many publications ago as there are requests on their way to it, which is five at most, less
the servers that were there before it subscribed. -/
theorem lags_by_window (S : Setting Uri H) (hrt : S.hyper.RoundTrip)
    (hW : Fintype.card W < 2 ^ 64) (h : BackendHeap Uri) (hw : W → BackendHeap Uri)
    (pre post : List (Cluster.Event W)) (i : W) (hf : Followed S h hw pre post i) :
    let P := (clusterSystem W S).run (Cluster.initial h hw) pre
    let Q := joinedBy S P i
    let C := (clusterSystem W S).run Q post
    (inbox C i).length ≤ 5 ∧
    ∃ v, (history S Q post).reverse[(inbox C i).length]? = some v ∧
      view (C.node i).worker.pool = v.drop P.manager.core.pool.inner.backends.length := by
  intro P Q C
  obtain ⟨hsent, hhandled, hfive⟩ := followed_channel hW hf
  obtain ⟨hstates, hlength, -, -, hnew⟩ := manager_history hf.valid hf.once
  have hview := followed_view hrt hW hf
  let ps := publications S Q.manager.core ((core W S).runEvents Q post)
  have hps : (sentFor i C.manager.publisher).length = ps.length := by
    rw [hsent, List.length_map]
  have hinbox : (inbox C i).length = ps.length - (C.node i).handled := by
    rw [inbox_length, hps]
  have hle : (C.node i).handled ≤ ps.length := hps ▸ hhandled
  have hlen : (history S Q post).length = ps.length + 1 := hlength
  refine ⟨hfive, replay applied (view P.manager.core.pool) (ps.take (C.node i).handled), ?_, ?_⟩
  · rw [← hstates (C.node i).handled hle, List.getElem?_reverse (by rw [hlen, hinbox]; omega),
      hlen, hinbox]
    congr 1
    omega
  · have hunknown : ∀ u ∈ added (ps.take (C.node i).handled),
        serverOf u ∉ (view P.manager.core.pool).map Prod.fst := fun u hu =>
      hnew u (((List.take_sublist _ _).filterMap _).subset hu)
    have hbehind := replay_behind hunknown []
    rw [List.append_nil] at hbehind
    rw [← List.length_map (f := fun b => (b.server P.manager.core.pool.heap,
      (b.read P.manager.core.pool.heap).state))]
    exact hview.trans hbehind.symm

def beforeJoin : List (Cluster.Event Bool) :=
  [.manager (.subscribe (some false)), .request false, .manager (.manager (post "http://a") [0])]

def afterJoin : List (Cluster.Event Bool) :=
  [.deliver false, .request false, .manager (.manager (post "http://b") [0, 1]),
    .manager (.complete 0 .ok), .deliver true, .request true, .complete true 0 (.response 200),
    .manager (.manager (post "http://c") [1, 0])]

def threeUrls : Setting String (InnerBackend String) :=
  knownUrls ["http://a", "http://b", "http://c"]

theorem second_followed : Followed threeUrls blankHeap (fun _ : Bool => blankHeap) beforeJoin
    afterJoin true := ⟨by decide, by decide, by decide, by decide⟩

theorem lags_by_window_second :
    let P := (clusterSystem Bool threeUrls).run
      (Cluster.initial blankHeap fun _ => blankHeap) beforeJoin
    let C := (clusterSystem Bool threeUrls).run (joinedBy threeUrls P true) afterJoin
    (inbox C true).length ≤ 5 ∧
    ∃ v, (history threeUrls (joinedBy threeUrls P true) afterJoin).reverse[
        (inbox C true).length]? = some v ∧
      view (C.node true).worker.pool = v.drop P.manager.core.pool.inner.backends.length :=
  lags_by_window threeUrls (fun _ => rfl) (by decide) blankHeap (fun _ => blankHeap) beforeJoin
    afterJoin true second_followed

example :
    let P := (clusterSystem Bool threeUrls).run
      (Cluster.initial blankHeap fun _ => blankHeap) beforeJoin
    let C := (clusterSystem Bool threeUrls).run (joinedBy threeUrls P true) afterJoin
    (inbox C true).length = 1 ∧
      view (C.node true).worker.pool = [(serverOf "http://b", .active)] := by decide

end Results

end ClusterAgreement
