import Mathlib.Data.Fintype.Card
import Weldr.Cluster
import Weldr.PublisherAccounting
import Weldr.ReplicaAgreement

/-! The channels between the manager and its workers. Every worker has one subscription of
its own, what it has handled is a first part of what was sent to it, and as long as its
entry is in the map no more than its window is on the way. -/
namespace ClusterChannels

open BackendPool TransitionSystems RequestTargets SubscriberProtocol Publisher SubscriberLines
  PublisherAccounting ManagerProcess Cluster WorkerReplica

section Publisher

variable {W Uri : Type} [DecidableEq W]

/-- What the publisher has to do with the workers, whose subscriptions are `f` and of whose
requests `done` were handled. -/
structure Linked (f : W → Option ℕ) (done : W → ℕ) (s : State W) : Prop where
  below : ∀ i id, f i = some id → id < s.nextId
  injective : ∀ i j id, f i = some id → f j = some id → i = j
  entries : ∀ id h, s.subscribers.lookup id = some h → f h.client = some id
  sent : ∀ r ∈ s.sent, f r.client = some r.idx
  waiting : ∀ r ∈ s.spawned, f r.client = some r.idx
  handled : ∀ i, done i ≤ (sentFor i s).length
  window : ∀ i id, f i = some id → id ∈ s.subscribers →
    (sentFor i s).length ≤ done i + s.spawned.countP fun r => r.client = i

/-- An event that a worker may take part in as it stands. -/
def Heard (f : W → Option ℕ) (done : W → ℕ) (s : State W) : Publisher.Event W Uri → Prop
  | .subscribe (some i) => f i = none ∧ s.nextId + 1 < 2 ^ 64
  | .complete k .ok => ∀ r ∈ s.spawned[k]?,
      (sentFor r.client s).length < done r.client + s.spawned.countP fun q => q.client = r.client
  | _ => True

def joined (f : W → Option ℕ) (s : State W) : Publisher.Event W Uri → W → Option ℕ
  | .subscribe (some i) => Function.update f i (some s.nextId)
  | _ => f

variable {f : W → Option ℕ} {done : W → ℕ} {s : State W}

theorem sentFor_of_unknown (hs : Linked f done s) {i : W} (hi : f i = none) : sentFor i s = [] := by
  rw [sentFor, List.filter_eq_nil_iff.mpr, List.map_nil]
  intro r hr
  have := hs.sent r hr
  simp only [decide_eq_true_eq]
  rintro rfl
  rw [hi] at this
  cases this

/-- Sorted by worker or by subscription, the requests sent are the same. -/
theorem sentFor_eq_sentTo (hs : Linked f done s) {i : W} {id : ℕ} (hi : f i = some id) :
    sentFor i s = sentTo id s := by
  unfold sentFor sentTo
  congr 1
  apply List.filter_congr
  intro r hr
  have hclient := hs.sent r hr
  refine decide_eq_decide.mpr ⟨?_, ?_⟩
  · rintro rfl
    exact Option.some.inj (hclient.symm.trans hi)
  · rintro rfl
    exact hs.injective _ _ _ hclient hi

theorem waiting_eq (hs : Linked f done s) {i : W} {id : ℕ} (hi : f i = some id) :
    (s.spawned.countP fun r => r.client = i) = s.spawned.countP fun r => r.idx = id := by
  apply List.countP_congr
  intro r hr
  have hclient := hs.waiting r hr
  simp only [decide_eq_true_eq]
  constructor
  · rintro rfl
    exact Option.some.inj (hclient.symm.trans hi)
  · rintro rfl
    exact hs.injective _ _ _ hclient hi

theorem linked_publishTo (hs : Linked f done s) (request : Request) (idx : ℕ) :
    Linked f done (s.publishTo request idx) := by
  unfold State.publishTo
  cases hl : s.subscribers.lookup idx with
  | none => exact hs
  | some h =>
    by_cases hw : h.requestsInFlight < 5
    · simp only [hw, if_true]
      have hc := hs.entries idx h hl
      refine ⟨hs.below, hs.injective, ?_, ?_, ?_, ?_, ?_⟩
      · intro id h' hh
        by_cases hid : id = idx
        · subst hid
          rw [AList.lookup_insert] at hh
          obtain rfl := Option.some.inj hh
          exact hc
        · rw [AList.lookup_insert_ne hid] at hh
          exact hs.entries id h' hh
      · intro r hr
        rcases List.mem_append.mp hr with hr | hr
        · exact hs.sent r hr
        · rw [List.mem_singleton.mp hr]; exact hc
      · intro r hr
        rcases List.mem_append.mp hr with hr | hr
        · exact hs.waiting r hr
        · rw [List.mem_singleton.mp hr]; exact hc
      · intro i
        have := hs.handled i
        simp only [sentFor, List.filter_append, List.map_append, List.length_append] at this ⊢
        omega
      · intro i id hi hin
        have hold : id ∈ s.subscribers := by
          rcases (AList.mem_insert _).mp hin with rfl | hin
          · exact AList.lookup_isSome.mp (by simp [hl])
          · exact hin
        have := hs.window i id hi hold
        by_cases hci : h.client = i
        · simp only [sentFor, List.length_map] at this
          simp [sentFor, hci]
          omega
        · simpa [sentFor, hci] using this
    · simpa only [hw, if_false] using hs

theorem linked_subscribe (hs : Linked f done s) {i : W} (hi : f i = none)
    (hn : s.nextId + 1 < 2 ^ 64) :
    Linked (Function.update f i (some s.nextId)) done (s.subscribe (some i)) := by
  have hknown : ∀ j id, f j = some id → Function.update f i (some s.nextId) j = some id := by
    intro j id hj
    rw [Function.update_of_ne, hj]
    rintro rfl
    rw [hi] at hj
    cases hj
  have hcases : ∀ j id, Function.update f i (some s.nextId) j = some id →
      (j = i ∧ id = s.nextId) ∨ (j ≠ i ∧ f j = some id) := by
    intro j id hj
    by_cases hij : j = i
    · subst hij
      rw [Function.update_self] at hj
      exact Or.inl ⟨rfl, (Option.some.inj hj).symm⟩
    · rw [Function.update_of_ne hij] at hj
      exact Or.inr ⟨hij, hj⟩
  have hnext : (s.subscribe (some i)).nextId = s.nextId + 1 := Nat.mod_eq_of_lt hn
  refine ⟨?_, ?_, ?_, fun r hr => hknown _ _ (hs.sent r hr),
    fun r hr => hknown _ _ (hs.waiting r hr), hs.handled, ?_⟩
  · intro j id hj
    rw [hnext]
    rcases hcases j id hj with ⟨-, rfl⟩ | ⟨-, hj⟩
    · exact Nat.lt_succ_self _
    · exact Nat.lt_succ_of_lt (hs.below j id hj)
  · intro j k id hj hk
    rcases hcases j id hj with ⟨rfl, rfl⟩ | ⟨-, hold⟩
    · rcases hcases k _ hk with ⟨rfl, -⟩ | ⟨-, hold'⟩
      · rfl
      · exact absurd (hs.below k _ hold') (lt_irrefl _)
    · rcases hcases k id hk with ⟨-, rfl⟩ | ⟨-, hold'⟩
      · exact absurd (hs.below j _ hold) (lt_irrefl _)
      · exact hs.injective j k id hold hold'
  · intro id h hh
    by_cases hid : id = s.nextId
    · subst hid
      simp only [State.subscribe, AList.lookup_insert] at hh
      obtain rfl := Option.some.inj hh
      simp
    · simp only [State.subscribe, AList.lookup_insert_ne hid] at hh
      exact hknown _ _ (hs.entries id h hh)
  · intro j id hj hin
    rcases hcases j id hj with ⟨rfl, rfl⟩ | ⟨-, hj⟩
    · -- nothing was sent to a worker before it subscribed
      have hnone : sentFor j (s.subscribe (some j)) = [] := sentFor_of_unknown hs hi
      rw [hnone]
      exact Nat.zero_le _
    · refine hs.window j id hj ?_
      rcases (AList.mem_insert _).mp hin with rfl | hin
      · exact absurd (hs.below j _ hj) (lt_irrefl _)
      · exact hin

theorem linked_erase (hs : Linked f done s) {spawned : List (Sent W)} {subscriptions : List ℕ}
    {idx : ℕ} (hsub : ∀ r ∈ spawned, r ∈ s.spawned)
    (hcount : ∀ i id, f i = some id → id ≠ idx →
      (spawned.countP fun r => r.client = i) = s.spawned.countP fun r => r.client = i) :
    Linked f done { s with
      subscribers := s.subscribers.erase idx
      spawned := spawned
      subscriptions := subscriptions } := by
  refine ⟨hs.below, hs.injective, ?_, hs.sent, fun r hr => hs.waiting r (hsub r hr), hs.handled,
    ?_⟩
  · intro id h hh
    by_cases hid : id = idx
    · subst hid
      simp only [AList.lookup_erase] at hh
      cases hh
    · simp only [AList.lookup_erase_ne hid] at hh
      exact hs.entries id h hh
  · intro i id hi hin
    obtain ⟨hne, hin⟩ := AList.mem_erase.mp hin
    have := hs.window i id hi hin
    rwa [← hcount i id hi hne] at this

theorem linked_complete (hs : Linked f done s) {k : ℕ} {answer : Answer}
    (he : Heard f done s (.complete k answer : Publisher.Event W Uri)) :
    Linked f done (s.complete k answer) := by
  unfold State.complete
  cases hr : s.spawned[k]? with
  | none => exact hs
  | some r =>
    have hmem : ∀ q ∈ s.spawned.eraseIdx k, q ∈ s.spawned := fun q hq =>
      List.mem_of_mem_eraseIdx hq
    have hcount := fun i => countP_eraseIdx hr fun q => decide (q.client = i)
    have hclient := hs.waiting r (List.mem_of_getElem? hr)
    cases answer with
    | err =>
      refine linked_erase hs hmem ?_
      intro i id hi hid
      have := hcount i
      rw [if_neg] at this
      · exact this.symm
      · simp only [decide_eq_true_eq]
        rintro rfl
        exact hid (Option.some.inj (hi.symm.trans hclient))
    | ok =>
      have hroom := he r hr
      have hwindow : ∀ i id, f i = some id → id ∈ s.subscribers → (sentFor i s).length ≤
          done i + (s.spawned.eraseIdx k).countP fun q => q.client = i := by
        intro i id hi hin
        have := hs.window i id hi hin
        have hc := hcount i
        by_cases hri : r.client = i
        · subst hri
          simp only [decide_true, if_true] at hc
          omega
        · simp only [hri, decide_false, Bool.false_eq_true, if_false, Nat.add_zero] at hc
          omega
      simp only [State.callback]
      cases hl : s.subscribers.lookup r.idx with
      | none =>
        exact ⟨hs.below, hs.injective, hs.entries, hs.sent, fun q hq => hs.waiting q (hmem q hq),
          hs.handled, hwindow⟩
      | some h =>
        refine ⟨hs.below, hs.injective, ?_, hs.sent, fun q hq => hs.waiting q (hmem q hq),
          hs.handled, ?_⟩
        · intro id h' hh
          by_cases hid : id = r.idx
          · subst hid
            simp only [AList.lookup_insert] at hh
            obtain rfl := Option.some.inj hh
            exact hs.entries _ h hl
          · simp only [AList.lookup_insert_ne hid] at hh
            exact hs.entries id h' hh
        · intro i id hi hin
          refine hwindow i id hi ?_
          rcases (AList.mem_insert _).mp hin with rfl | hin
          · exact AList.lookup_isSome.mp (by simp [hl])
          · exact hin

theorem linked_drop (hs : Linked f done s) (i : ℕ) : Linked f done (s.dropSubscription i) := by
  unfold State.dropSubscription
  split
  · exact linked_erase hs (fun _ hr => hr) fun _ _ _ _ => rfl
  · exact hs

theorem linked_handled (hs : Linked f done s) {i : W} (hi : done i < (sentFor i s).length) :
    Linked f (Function.update done i (done i + 1)) s := by
  refine ⟨hs.below, hs.injective, hs.entries, hs.sent, hs.waiting, ?_, ?_⟩
  · intro j
    by_cases hij : j = i
    · subst hij
      rw [Function.update_self]
      exact hi
    · simpa [hij] using hs.handled j
  · intro j id hj hin
    have := hs.window j id hj hin
    by_cases hij : j = i
    · subst hij; simp; omega
    · simpa [hij] using this

theorem linked_publish (hs : Linked f done s) (request : Request) (order : List ℕ) :
    Linked f done (s.publish request order) := by
  induction order generalizing s with
  | nil => exact hs
  | cons idx order ih => exact ih (linked_publishTo hs request idx)

theorem linked_next (hyper : UriText Uri) (hs : Linked f done s) {e : Publisher.Event W Uri}
    (he : Heard f done s e) : Linked (joined f s e) done (Publisher.next hyper s e) := by
  cases e with
  | subscribe params =>
    cases params with
    | none => exact hs
    | some i => exact linked_subscribe hs he.1 he.2
  | publish p order =>
    simp only [Publisher.next, State.publication_eq]
    exact linked_publish hs _ order
  | complete k answer => exact linked_complete hs he
  | drop i => exact linked_drop hs i

theorem linked_published (hyper : UriText Uri) (hs : Linked f done s) (order : List ℕ)
    (ps : List (Publication Uri × Pool Uri)) :
    Linked f done ((publisherSystem W hyper).run s (ps.map fun p => .publish p.1 order)) := by
  induction ps generalizing s with
  | nil => exact hs
  | cons p ps ih => exact ih (linked_next hyper hs (e := .publish p.1 order) trivial)

omit [DecidableEq W] in
theorem sent_publish (s : State W) (request : Request) (order : List ℕ) :
    s.sent <+: (s.publish request order).sent := by
  induction order generalizing s with
  | nil => exact List.prefix_refl _
  | cons idx order ih =>
    refine List.IsPrefix.trans ?_ (ih (s.publishTo request idx))
    unfold State.publishTo
    cases s.subscribers.lookup idx with
    | none => exact List.prefix_refl _
    | some h =>
      by_cases hw : h.requestsInFlight < 5
      · simp only [hw, if_true]
        exact List.prefix_append _ _
      · simp only [hw, if_false]
        exact List.prefix_refl _

omit [DecidableEq W] in
theorem sent_next (hyper : UriText Uri) (s : State W) (e : Publisher.Event W Uri) :
    s.sent <+: (Publisher.next hyper s e).sent := by
  cases e with
  | subscribe params => cases params <;> exact List.prefix_refl _
  | publish p order =>
    simp only [Publisher.next, State.publication_eq]
    exact sent_publish s _ order
  | complete k answer =>
    simp only [Publisher.next, State.complete]
    cases s.spawned[k]? with
    | none => exact List.prefix_refl _
    | some r =>
      cases answer with
      | err => exact List.prefix_refl _
      | ok =>
        simp only [State.callback]
        cases s.subscribers.lookup r.idx <;> exact List.prefix_refl _
  | drop i =>
    simp only [Publisher.next, State.dropSubscription]
    split <;> exact List.prefix_refl _

theorem sentFor_run (hyper : UriText Uri) (i : W) (s : State W)
    (es : List (Publisher.Event W Uri)) :
    sentFor i s <+: sentFor i ((publisherSystem W hyper).run s es) := by
  have hsent : s.sent <+: ((publisherSystem W hyper).run s es).sent := by
    induction es generalizing s with
    | nil => exact List.prefix_refl _
    | cons e es ih => exact (sent_next hyper s e).trans (ih (Publisher.next hyper s e))
  exact (hsent.filter _).map _

end Publisher

section Whole

variable {W Uri H : Type} [DecidableEq W] [DecidableEq Uri] [DecidableEq H]

def channel (W : Type) {Uri H : Type} [DecidableEq W] [DecidableEq Uri] [DecidableEq H]
    (S : Setting Uri H) : Projection (clusterSystem W S) (publisherSystem W S.hyper) :=
  (publisherPart W S).comp (managerPart W S)

variable {S : Setting Uri H} {C : Cluster.State W Uri H}

theorem channel_events (C : Cluster.State W Uri H) (e : ManagerPublisher.Event W) :
    (channel W S).events C (.manager e) = publisherEvents S C.manager e := List.append_nil _

def members [Fintype W] (C : Cluster.State W Uri H) : ℕ :=
  (Finset.univ.filter fun i => ((C.node i).subscription).isSome).card

structure Consistent [Fintype W] (C : Cluster.State W Uri H) : Prop where
  linked : Linked (fun i => (C.node i).subscription) (fun i => (C.node i).handled)
    C.manager.publisher
  known : Known (members C) C.manager.publisher
  balanced : ∀ id, Balanced (line id C.manager.publisher)

omit [DecidableEq Uri] [DecidableEq H] in
theorem joined_node (C : Cluster.State W Uri H) (i : W) :
    (fun j => (subscribed C (.subscribe (some i)) j).subscription) =
      Function.update (fun j => (C.node j).subscription) i (some C.manager.publisher.nextId) := by
  funext j
  by_cases hj : j = i
  · subst hj; simp [subscribed]
  · simp [subscribed, hj]

omit [DecidableEq H] in
theorem subscription_act (hyper : UriText Uri) (C : Cluster.State W Uri H) (i j : W)
    (e : WorkerSubscriber.Event) :
    ((act hyper C i e).node j).subscription = (C.node j).subscription := by
  by_cases hj : j = i
  · subst hj; simp [act, Node.act]
  · simp [act, hj]

omit [DecidableEq H] in
theorem handled_act (hyper : UriText Uri) (C : Cluster.State W Uri H) (i : W)
    (e : WorkerSubscriber.Event) :
    (fun j => ((act hyper C i e).node j).handled) =
      match e with
      | .message _ => Function.update (fun j => (C.node j).handled) i ((C.node i).handled + 1)
      | .request | .complete _ _ => fun j => (C.node j).handled := by
  funext j
  by_cases hj : j = i
  · subst hj; cases e <;> simp [act, Node.act]
  · cases e <;> simp [act, hj]

variable [Fintype W]

theorem members_subscribe {i : W} (hi : (C.node i).subscription = none) :
    members (Cluster.next S C (.manager (.subscribe (some i)))) = members C + 1 := by
  have hset : (Finset.univ.filter fun j =>
      ((subscribed C (.subscribe (some i)) j).subscription).isSome) =
        insert i (Finset.univ.filter fun j => ((C.node j).subscription).isSome) := by
    ext j
    have hj := congrFun (joined_node C i) j
    by_cases hij : j = i
    · subst hij; simp [hj]
    · simp [hj, hij]
  change (Finset.univ.filter fun j =>
      ((subscribed C (.subscribe (some i)) j).subscription).isSome).card = _
  rw [hset, Finset.card_insert_of_notMem (by simp [hi])]
  rfl

omit [DecidableEq W] [DecidableEq Uri] [DecidableEq H] in
theorem members_same {D : Cluster.State W Uri H}
    (h : ∀ i, (D.node i).subscription = (C.node i).subscription) : members D = members C := by
  simp only [members, h]

omit [DecidableEq W] [DecidableEq Uri] [DecidableEq H] in
theorem members_lt {i : W} (hi : (C.node i).subscription = none) :
    members C < Fintype.card W := by
  refine (Finset.card_lt_card ?_).trans_eq Finset.card_univ
  refine Finset.ssubset_univ_iff.mpr fun hall => ?_
  have hmem := Finset.mem_filter.mp (hall ▸ Finset.mem_univ i)
  rw [hi] at hmem
  exact absurd hmem.2 Bool.false_ne_true

omit [DecidableEq W] [DecidableEq Uri] [DecidableEq H] [Fintype W] in
theorem published_subscriptions (order : List ℕ) (ps : List (Publication Uri × Pool Uri)) :
    (ps.map fun p => (.publish p.1 order : Publisher.Event W Uri)).countP isSubscription = 0 := by
  rw [List.countP_eq_zero]
  intro e he
  obtain ⟨p, -, rfl⟩ := List.mem_map.mp he
  exact Bool.false_ne_true

/-- Every worker subscribes once, so there are as many subscriptions as members. -/
theorem members_next {e : Cluster.Event W} (he : Cluster.Enabled S C e) :
    members (Cluster.next S C e) =
      members C + ((channel W S).events C e).countP isSubscription := by
  cases e with
  | manager m =>
    rw [channel_events]
    cases m with
    | manager e order =>
      have hcount : (publisherEvents S C.manager (.manager e order)).countP isSubscription = 0 :=
        published_subscriptions order _
      rw [hcount]
      rfl
    | subscribe params =>
      cases params with
      | none => rfl
      | some i => exact members_subscribe he.2
    | complete | drop => rfl
  | deliver i =>
    refine members_same fun j => ?_
    simp only [Cluster.next, workerEvent]
    cases (inbox C i).head? with
    | none => rfl
    | some r => exact subscription_act _ _ _ _ _
  | request i => exact members_same fun j => subscription_act _ _ _ _ _
  | complete i k o => exact members_same fun j => subscription_act _ _ _ _ _

omit [DecidableEq Uri] [DecidableEq H] [Fintype W] in
theorem inbox_length (C : Cluster.State W Uri H) (i : W) :
    (inbox C i).length = (sentFor i C.manager.publisher).length - (C.node i).handled :=
  List.length_drop

theorem linked_manager (hC : Consistent C) (hW : Fintype.card W < 2 ^ 64)
    {m : ManagerPublisher.Event W} (he : Cluster.Enabled S C (.manager m)) :
    Linked (fun i => (subscribed C m i).subscription) (fun i => (subscribed C m i).handled)
      (ManagerPublisher.next S C.manager m).publisher := by
  have hlink := hC.linked
  have hdone : (fun i => (subscribed C m i).handled) = fun i => (C.node i).handled :=
    funext fun i => (worker_subscribed C m i).2
  have hlast : ∀ f, Linked f (fun i => (C.node i).handled)
      (ManagerPublisher.next S C.manager m).publisher →
      (fun i => (subscribed C m i).subscription) = f →
      Linked (fun i => (subscribed C m i).subscription) (fun i => (subscribed C m i).handled)
        (ManagerPublisher.next S C.manager m).publisher := by
    rintro f hf rfl
    rw [hdone]
    exact hf
  cases m with
  | manager e order =>
    refine hlast _ ?_ rfl
    have := linked_published S.hyper hlink order (published S C.manager.core e)
    rwa [publish_run] at this
  | subscribe params =>
    cases params with
    | none => exact hlink
    | some i =>
      refine hlast _ (linked_subscribe hlink he.2 ?_) (joined_node C i)
      have := members_lt he.2
      have := hC.known.nextId
      omega
  | complete k answer =>
    refine hlast _ (@linked_complete _ Uri _ _ _ _ hlink _ _ ?_) rfl
    cases answer with
    | err => trivial
    | ok =>
      intro r hr
      have hroom := he.2 r hr
      have hle : (C.node r.client).handled ≤ _ := hlink.handled r.client
      rw [inbox_length] at hroom
      change _ < (C.node r.client).handled + _
      omega
  | drop i => exact hlast _ (linked_drop hlink i) rfl

theorem linked_next_whole (hC : Consistent C) (hW : Fintype.card W < 2 ^ 64)
    {e : Cluster.Event W} (he : Cluster.Enabled S C e) :
    Linked (fun i => ((Cluster.next S C e).node i).subscription)
      (fun i => ((Cluster.next S C e).node i).handled) (Cluster.next S C e).manager.publisher := by
  have hact : ∀ i a, (∀ r, a ≠ .message r) →
      Linked (fun j => ((act S.hyper C i a).node j).subscription)
        (fun j => ((act S.hyper C i a).node j).handled) C.manager.publisher := by
    intro i a ha
    rw [handled_act]
    simp only [subscription_act]
    cases a with
    | message r => exact absurd rfl (ha r)
    | request | complete => exact hC.linked
  cases e with
  | manager m => exact linked_manager hC hW he
  | deliver i =>
    obtain ⟨a, ha, -⟩ := he
    obtain ⟨r, hr, rfl⟩ := Option.map_eq_some_iff.mp ha
    have hpos : 0 < (inbox C i).length := List.length_pos_of_mem (List.mem_of_mem_head? hr)
    have hnext : Cluster.next S C (.deliver i) = act S.hyper C i (.message r) := by
      simp only [Cluster.next, workerEvent, hr, Option.map_some]
    rw [hnext, handled_act]
    simp only [subscription_act]
    rw [inbox_length] at hpos
    exact linked_handled hC.linked (by omega)
  | request i => exact hact i _ (by simp)
  | complete i k o => exact hact i _ (by simp)

theorem consistent_next (hW : Fintype.card W < 2 ^ 64) (hC : Consistent C) {e : Cluster.Event W}
    (he : Cluster.Enabled S C e) : Consistent (Cluster.next S C e) := by
  have hmembers := members_next he
  have hroom : members C + ((channel W S).events C e).countP isSubscription < 2 ^ 64 := by
    rw [← hmembers]
    exact (Finset.card_le_univ _).trans_lt hW
  obtain ⟨hknown, hbalanced, -⟩ := run_known S.hyper hC.known hC.balanced
    ((channel W S).enabled C e he) hroom
  have hstep : (Cluster.next S C e).manager.publisher = _ := (channel W S).step C e he
  refine ⟨linked_next_whole hC hW he, ?_, ?_⟩
  · rw [hstep, hmembers]; exact hknown
  · rw [hstep]; exact hbalanced

omit [DecidableEq W] [DecidableEq Uri] [DecidableEq H] in
theorem initial_consistent [DecidableEq W] (h : BackendHeap Uri) (hw : W → BackendHeap Uri) :
    Consistent (Cluster.initial h hw : Cluster.State W Uri H) := by
  have hmembers : members (Cluster.initial h hw : Cluster.State W Uri H) = 0 := by
    simp [members, Cluster.initial]
  refine ⟨?_, ?_, initial_balanced⟩
  · constructor <;> simp [Cluster.initial, ManagerPublisher.initial, Publisher.initial]
  · rw [hmembers]
    exact initial_known

theorem run_consistent (hW : Fintype.card W < 2 ^ 64) (hC : Consistent C)
    {es : List (Cluster.Event W)} (hv : (clusterSystem W S).Valid C es) :
    Consistent ((clusterSystem W S).run C es) :=
  System.run_invariant (T := clusterSystem W S) (I := Consistent)
    (fun _ _ hC he => consistent_next hW hC he) hC hv

theorem members_run {es : List (Cluster.Event W)} (hv : (clusterSystem W S).Valid C es) :
    members ((clusterSystem W S).run C es) =
      members C + ((channel W S).runEvents C es).countP isSubscription := by
  induction es generalizing C with
  | nil => rfl
  | cons e es ih =>
    have hstep := members_next hv.1
    rw [System.run_cons, ih hv.2, Projection.runEvents_cons, List.countP_append, ← Nat.add_assoc]
    exact congrArg (· + _) hstep

omit [Fintype W] in
theorem subscription_run {i : W} {id : ℕ} (hi : (C.node i).subscription = some id)
    {es : List (Cluster.Event W)} (hv : (clusterSystem W S).Valid C es) :
    ((((clusterSystem W S).run C es).node i).subscription) = some id := by
  refine System.run_invariant (T := clusterSystem W S)
    (I := fun C => (C.node i).subscription = some id) ?_ hi hv
  intro C e hi he
  cases e with
  | manager m =>
    change (subscribed C m i).subscription = some id
    unfold subscribed
    split
    · next j =>
      have hnone : (C.node j).subscription = none := he.2
      rw [Function.update_of_ne]
      · exact hi
      · rintro rfl
        rw [hi] at hnone
        cases hnone
    · exact hi
  | deliver j =>
    change ((Cluster.next S C (.deliver j)).node i).subscription = some id
    simp only [Cluster.next, workerEvent]
    cases (inbox C j).head? with
    | none => exact hi
    | some r => exact (subscription_act _ _ _ _ _).trans hi
  | request j => exact (subscription_act _ _ _ _ _).trans hi
  | complete j k o => exact (subscription_act _ _ _ _ _).trans hi

end Whole

section Handled

variable {W Uri H : Type} [DecidableEq W] [DecidableEq Uri] [DecidableEq H]
  {S : Setting Uri H} {C : Cluster.State W Uri H}

def received (C : Cluster.State W Uri H) (i : W) : List Request :=
  (sentFor i C.manager.publisher).take (C.node i).handled

omit [DecidableEq Uri] [DecidableEq H] in
theorem received_inbox (C : Cluster.State W Uri H) (i : W) :
    received C i ++ inbox C i = sentFor i C.manager.publisher := List.take_append_drop _ _

theorem sentFor_next (S : Setting Uri H) (C : Cluster.State W Uri H) (e : Cluster.Event W) (i : W)
    (he : Cluster.Enabled S C e) :
    sentFor i C.manager.publisher <+: sentFor i (Cluster.next S C e).manager.publisher := by
  have hstep : (Cluster.next S C e).manager.publisher = _ := (channel W S).step C e he
  rw [hstep]
  exact sentFor_run S.hyper i _ _

variable [Fintype W]

theorem received_next (hC : Consistent C) {e : Cluster.Event W} (he : Cluster.Enabled S C e)
    (i : W) :
    received (Cluster.next S C e) i = received C i ++ messagesOf (eventsOf i C e) := by
  have hle : (C.node i).handled ≤ (sentFor i C.manager.publisher).length := hC.linked.handled i
  have hact : ∀ j a, (∀ r, a ≠ .message r) →
      received (act S.hyper C j a) i =
        received C i ++ messagesOf (if j = i then [a] else []) := by
    intro j a ha
    have hdone := congrFun (handled_act S.hyper C j a) i
    have hquiet : messagesOf (if j = i then [a] else []) = [] := by
      split
      · exact messagesOf_traffic ha []
      · rfl
    rw [hquiet, List.append_nil]
    cases a with
    | message r => exact absurd rfl (ha r)
    | request | complete => exact congrArg (fun n => (sentFor i C.manager.publisher).take n) hdone
  cases e with
  | manager m =>
    obtain ⟨l, hl⟩ := sentFor_next S C (.manager m) i he
    have hdone : (subscribed C m i).handled = (C.node i).handled := (worker_subscribed C m i).2
    change (sentFor i (ManagerPublisher.next S C.manager m).publisher).take
      (subscribed C m i).handled = received C i ++ []
    rw [hdone, List.append_nil]
    change sentFor i C.manager.publisher ++ l =
      sentFor i (ManagerPublisher.next S C.manager m).publisher at hl
    rw [← hl, List.take_append_of_le_length hle]
    rfl
  | deliver j =>
    obtain ⟨a, ha, -⟩ := he
    obtain ⟨r, hr, rfl⟩ := Option.map_eq_some_iff.mp ha
    have hnext : Cluster.next S C (.deliver j) = act S.hyper C j (.message r) := by
      simp only [Cluster.next, workerEvent, hr, Option.map_some]
    have hown : eventsOf i C (.deliver j) = if j = i then [.message r] else [] := by
      simp only [eventsOf, workerEvent, hr, Option.map_some]
    have hdone := congrFun (handled_act S.hyper C j (.message r)) i
    rw [hnext, hown]
    change (sentFor i C.manager.publisher).take ((act S.hyper C j (.message r)).node i).handled = _
    rw [hdone]
    by_cases hj : j = i
    · subst hj
      have hat : (sentFor j C.manager.publisher)[(C.node j).handled]? = some r := by
        rw [← hr, inbox, List.head?_drop]
      simp only [Function.update_self, if_true]
      rw [List.take_add_one, hat]
      rfl
    · simp only [Function.update_of_ne (Ne.symm hj), if_neg hj]
      exact (List.append_nil _).symm
  | request j => exact hact j _ (by simp)
  | complete j k o => exact hact j _ (by simp)

theorem received_run (hW : Fintype.card W < 2 ^ 64) (hC : Consistent C)
    {es : List (Cluster.Event W)} (hv : (clusterSystem W S).Valid C es) (i : W) :
    received ((clusterSystem W S).run C es) i =
      received C i ++ messagesOf ((workerPart W S i).runEvents C es) := by
  have hall := (System.always_invariant (T := clusterSystem W S) (I := Consistent)
    (fun _ _ hC he => consistent_next hW hC he) hC hv).1
  have hmessages : messagesOf ((workerPart W S i).runEvents C es) =
      (clusterSystem W S).observe (fun C e => messagesOf (eventsOf i C e)) C es :=
    System.filterMap_observe _ _ _ _ _
  rw [hmessages]
  exact System.run_reading (T := clusterSystem W S) (f := fun C => received C i)
    (hall.imp fun C e h => received_next h.1 h.2 i)

end Handled

end ClusterChannels
