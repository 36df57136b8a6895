import Weldr.ReplicaAgreement

/-! A worker that subscribes when the manager has servers already. A subscription sends
nothing, so the worker learns of a server only when it is posted after that; of these
servers it knows what the manager knows. -/
namespace LateSubscription

open BackendPool TransitionSystems PoolServerSet RequestTargets SubscriberProtocol PoolView
  ManagementApi ManagerProcess ManagerRecords WorkerReplica ReplicaAgreement

section Views

variable {Uri : Type} [DecidableEq Uri]

/-- A server that is added while it is in the view is active there. -/
def FreshLog : View Uri → List (Publication Uri) → Prop
  | _, [] => True
  | v, p :: ps =>
    (∀ u, p = .newServer u → ∀ st, (serverOf u, st) ∈ v → st = .active) ∧
      FreshLog (applied v p) ps

theorem FreshLog.append {v : View Uri} {ps qs : List (Publication Uri)} (hp : FreshLog v ps)
    (hq : FreshLog (replay applied v ps) qs) : FreshLog v (ps ++ qs) := by
  induction ps generalizing v with
  | nil => exact hq
  | cons p ps ih => exact ⟨hp.1, ih hp.2 hq⟩

theorem freshLog_of_marks {v : View Uri} {ps : List (Publication Uri)} (h : added ps = []) :
    FreshLog v ps := by
  induction ps generalizing v with
  | nil => trivial
  | cons p ps ih =>
    cases p with
    | newServer u => simp [added] at h
    | serverStateDown u | serverStateActive u => exact ⟨by simp, ih h⟩

/-- `w` is the part of `v` that belongs to the urls in `A`. -/
def PartFor (A : List Uri) (v w : View Uri) : Prop :=
  ∀ x, x ∈ w ↔ x ∈ v ∧ ∃ u ∈ A, x.1 = serverOf u

theorem mem_setState {s : Server Uri} {st : ServerState} {v : View Uri}
    {x : Server Uri × ServerState} :
    x ∈ setState s st v ↔ ∃ y ∈ v, (if y.1 = s then (y.1, st) else y) = x := List.mem_map

theorem partFor_setState {A : List Uri} {v w : View Uri} (h : PartFor A v w) (s : Server Uri)
    (st : ServerState) : PartFor A (setState s st v) (setState s st w) := by
  intro x
  simp only [mem_setState]
  constructor
  · rintro ⟨y, hy, rfl⟩
    obtain ⟨hv, u, hu, he⟩ := (h y).mp hy
    refine ⟨⟨y, hv, rfl⟩, u, hu, ?_⟩
    split <;> exact he
  · rintro ⟨⟨y, hy, rfl⟩, u, hu, he⟩
    refine ⟨y, (h y).mpr ⟨hy, u, hu, ?_⟩, rfl⟩
    split at he <;> exact he

theorem mem_applied_new {v : View Uri} {u : Uri}
    (hf : ∀ st, (serverOf u, st) ∈ v → st = .active) (x : Server Uri × ServerState) :
    x ∈ applied v (.newServer u) ↔ x ∈ v ∨ x = (serverOf u, .active) := by
  rw [applied]
  split
  · next h =>
    refine ⟨Or.inl, ?_⟩
    rintro (hx | rfl)
    · exact hx
    · obtain ⟨⟨s, st⟩, hy, hs⟩ := List.mem_map.mp h
      simp only at hs
      subst hs
      exact hf st hy ▸ hy
  · simp

theorem partFor_add {A : List Uri} {v w : View Uri} (h : PartFor A v w) {u : Uri}
    (hf : ∀ st, (serverOf u, st) ∈ v → st = .active) :
    PartFor (A ++ [u]) (applied v (.newServer u)) (applied w (.newServer u)) := by
  have hw : ∀ st, (serverOf u, st) ∈ w → st = .active := fun st hst => hf st ((h _).mp hst).1
  intro x
  rw [mem_applied_new hf, mem_applied_new hw]
  constructor
  · rintro (hx | rfl)
    · obtain ⟨hv, a, ha, he⟩ := (h x).mp hx
      exact ⟨Or.inl hv, a, List.mem_append_left _ ha, he⟩
    · exact ⟨Or.inr rfl, u, by simp, rfl⟩
  · rintro ⟨hx | rfl, a, ha, he⟩
    · rcases List.mem_append.mp ha with ha | ha
      · exact Or.inl ((h x).mpr ⟨hx, a, ha, he⟩)
      · rw [List.mem_singleton.mp ha] at he
        obtain ⟨s, st⟩ := x
        simp only at he
        subst he
        exact Or.inr (by rw [hf st hx])
    · exact Or.inr rfl

theorem partFor_replay {ps : List (Publication Uri)} {A : List Uri} {v w : View Uri}
    (h : PartFor A v w) (hf : FreshLog v ps) :
    PartFor (A ++ added ps) (replay applied v ps) (replay applied w ps) := by
  induction ps generalizing A v w with
  | nil => simpa [added, replay] using h
  | cons p ps ih =>
    cases p with
    | newServer u =>
      have hrest := ih (partFor_add h (hf.1 u rfl)) hf.2
      rwa [List.append_assoc] at hrest
    | serverStateDown u => exact ih (partFor_setState h (serverOf u) .down) hf.2
    | serverStateActive u => exact ih (partFor_setState h (serverOf u) .active) hf.2

end Views

section Manager

variable {Uri H : Type} [DecidableEq Uri] [DecidableEq H] {S : Setting Uri H}

omit [DecidableEq Uri] in
theorem active_of_fresh {p : Pool Uri} {u : Uri} (hf : FreshAdd p (.add (serverOf u)))
    {st : ServerState} (hst : (serverOf u, st) ∈ view p) : st = .active := by
  obtain ⟨b, hb, he⟩ := List.mem_map.mp hst
  obtain ⟨hs, rfl⟩ := Prod.mk.inj he
  rw [hf b hb hs]
  rfl

theorem freshLog_step {c : Core Uri H} {e : Event} (hf : FreshPost S c e) :
    FreshLog (view c.pool) ((published S c e).map Prod.fst) := by
  cases e with
  | api req =>
    simp only [published, step]
    cases hr : call S.hyper S.serde c.pool req with
    | none => trivial
    | some r =>
      rcases call_cases hr with ⟨u, hu, hpub, -⟩ | ⟨-, hpub, -⟩
      · simp only [Option.map_some, Option.getD_some, hpub, Option.toList_some, List.map_cons,
          List.map_nil]
        refine ⟨?_, trivial⟩
        rintro a ha st hst
        obtain rfl := Publication.newServer.inj ha
        exact active_of_fresh (hf u hu) hst
      · simp only [Option.map_some, Option.getD_some, hpub]
        trivial
  | timer | checked => exact freshLog_of_marks (added_published c _)

/-- In a run with fresh additions only, the log adds a server that is there only while it is
active. -/
theorem freshLog_run {c : Core Uri H} (hc : Managed c) {es : List Event}
    (hf : (coreSystem S).Always (FreshPost S) c es) :
    FreshLog (view c.pool) (publications S c es) := by
  induction es generalizing c with
  | nil => trivial
  | cons e es ih =>
    have hrec := next_recorded hc hf.1
    have hreplay := hrec.records.replay_eq
    rw [entries, List.map_map] at hreplay
    have hpubs : publications S c (e :: es) =
        (published S c e).map Prod.fst ++ publications S (next S c e) es := List.map_append
    rw [hpubs]
    refine (freshLog_step hf.1).append ?_
    have hrest := ih hrec.managed hf.2
    rw [hreplay] at hrest
    exact hrest

end Manager

section Processes

open ManagerPublisher

variable {Client Uri H : Type} [DecidableEq Uri] [DecidableEq H]

def FreshStep (S : Setting Uri H) (P : Process Client Uri H) :
    ManagerPublisher.Event Client → Prop
  | .manager e _ => FreshPost S P.core e
  | _ => True

instance (S : Setting Uri H) (P : Process Client Uri H) :
    (e : ManagerPublisher.Event Client) → Decidable (FreshStep S P e)
  | .manager e _ => inferInstanceAs (Decidable (FreshPost S P.core e))
  | .subscribe _ | .complete _ _ | .drop _ => inferInstanceAs (Decidable True)

def postedIn (S : Setting Uri H) (es : List (ManagerPublisher.Event Client)) : List Uri :=
  (managerEvents es).filterMap (postedBy S)

theorem manager_since (S : Setting Uri H) {P : Process Client Uri H} (hP : Managed P.core)
    {post : List (ManagerPublisher.Event Client)}
    (hf : (processSystem Client S).Always (FreshStep S) P post) :
    let R := (processSystem Client S).run P post
    let ps := (processSystem Client S).observe (publishedIn S) P post
    Managed R.core ∧ FreshLog (view P.core.pool) ps ∧
      view R.core.pool = replay applied (view P.core.pool) ps ∧ added ps = postedIn S post := by
  intro R ps
  have hcore : (coreSystem S).Always (FreshPost S) P.core (managerEvents post) := by
    refine always_core (hf.imp fun P e he => ?_)
    cases e with
    | manager e order => exact he
    | subscribe | complete | drop => trivial
  have hps : ps = publications S P.core (managerEvents post) := by
    change (processSystem Client S).observe (publishedIn S) P post = _
    rw [publishedIn_run, publications, System.map_observe]
  obtain ⟨hmanaged, hrecords⟩ := run_records hP hcore
  have hview := hrecords.replay_eq
  rw [(entries_publications P.core _).2] at hview
  have hrun : R.core = (coreSystem S).run P.core (managerEvents post) := core_run S P post
  rw [hrun, hps]
  exact ⟨hmanaged, freshLog_run hP hcore, hview, added_publications _ _⟩

/-- A worker that subscribes after `pre`, starts empty and has handled in order everything
that was published since, with nothing skipped, has exactly the servers of the manager's
pool that were posted since it subscribed, in the states that they have there. No server is
twice in the manager's pool at the subscription, and the additions of manager and worker are
fresh from then on. -/
theorem knows_posted_since (S : Setting Uri H) (hrt : S.hyper.RoundTrip)
    (h h' : BackendHeap Uri) (pre post : List (ManagerPublisher.Event Client))
    (client : Client) (ws : List WorkerSubscriber.Event)
    (hfresh' : (WorkerSubscriber.workerSystem S.hyper).Always (FreshMessage S.hyper)
      (WorkerSubscriber.initial h') ws) :
    let P := (processSystem Client S).run (ManagerPublisher.initial h) pre
    let Q := ManagerPublisher.next S P (.subscribe (some client))
    let R := (processSystem Client S).run Q post
    let id := P.publisher.nextId
    P.core.pool.servers.Nodup → (processSystem Client S).Always (FreshStep S) Q post →
      Publisher.sentTo id R.publisher = Publisher.sentTo id P.publisher ++
        ((processSystem Client S).observe (publishedIn S) Q post).map
          (fun p => p.request S.hyper) →
      Publisher.sentTo id R.publisher = Publisher.sentTo id P.publisher ++ messagesOf ws →
      (WorkerSubscriber.workerSystem S.hyper).Valid (WorkerSubscriber.initial h') ws ∧
      (view ((WorkerSubscriber.workerSystem S.hyper).run
        (WorkerSubscriber.initial h') ws).pool).Perm
        ((view R.core.pool).filter fun x => x.1 ∈ (postedIn S post).map serverOf) := by
  intro P Q R id hservers hpost hsent hhandled
  have hcore : P.core = (coreSystem S).run (initial h) (managerEvents pre) := core_run S _ pre
  have hP : Managed P.core :=
    managed_of_sound (hcore ▸ ManagerPool.run_sound (ManagerPool.initial_sound h) _) hservers
  have hQ : Managed Q.core := hP
  obtain ⟨hR, hlog, hview, hadded⟩ := manager_since S hQ hpost
  have hmessages : messagesOf ws =
      ((processSystem Client S).observe (publishedIn S) Q post).map fun p => p.request S.hyper :=
    List.append_cancel_left (hhandled.symm.trans hsent)
  obtain ⟨hvalid, hrep, hworker⟩ := view_run hrt (initial_replica h') hfresh' hmessages
  refine ⟨hvalid, ?_⟩
  have hempty : PartFor [] (view Q.core.pool) [] := by intro x; simp
  have hpart := partFor_replay hempty hlog
  have hstart : view (WorkerSubscriber.initial h').pool = [] := rfl
  rw [List.nil_append, hadded, ← hview, ← hstart, ← hworker] at hpart
  have hnodup := List.Nodup.of_map Prod.fst ((view_servers _).symm ▸ hrep.servers)
  have hnodup' := List.Nodup.of_map Prod.fst ((view_servers _).symm ▸ hR.distinct.servers)
  refine (List.perm_ext_iff_of_nodup hnodup (hnodup'.filter _)).mpr ?_
  intro x
  rw [hpart x, List.mem_filter, decide_eq_true_eq, List.mem_map]
  simp only [eq_comm]

end Processes

section Instance

open ManagerPublisher

def twoServers : Setting String (InnerBackend String) := knownUrls ["http://a", "http://b"]

theorem knows_posted_since_b :
    let P := (processSystem Unit twoServers).run (ManagerPublisher.initial blankHeap)
      [.manager (post "http://a") []]
    let R := (processSystem Unit twoServers).run
      (ManagerPublisher.next twoServers P (.subscribe (some ())))
      [.manager (post "http://b") [0], .complete 0 .ok]
    (view ((WorkerSubscriber.workerSystem plainText).run (WorkerSubscriber.initial blankHeap)
      [.message (.addServer "http://b"), .request]).pool).Perm
      ((view R.core.pool).filter fun x => x.1 ∈ [serverOf "http://b"]) :=
  (knows_posted_since twoServers (fun _ => rfl) blankHeap blankHeap
    [.manager (post "http://a") []] [.manager (post "http://b") [0], .complete 0 .ok] ()
    [.message (.addServer "http://b"), .request] (by decide) (by decide) (by decide) (by decide)
    (by decide)).2

/-- A worker that subscribes after a server was added is never told of it. -/
theorem late_worker_empty :
    let es : List (ManagerPublisher.Event Unit) :=
      [.manager (post "http://a") [], .subscribe (some ())]
    let R := (processSystem Unit twoServers).run (ManagerPublisher.initial blankHeap) es
    (processSystem Unit twoServers).Valid (ManagerPublisher.initial blankHeap) es ∧
    Publisher.sentTo 0 R.publisher = [] ∧
    view R.core.pool = [(serverOf "http://a", .active)] ∧
    view ((WorkerSubscriber.workerSystem plainText).run (WorkerSubscriber.initial blankHeap)
      []).pool = [] := by decide

end Instance

end LateSubscription
