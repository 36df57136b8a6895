import Weldr.PoolServerSet
import Weldr.WorkerRouting
import Weldr.ManagerRecords

/-! A worker's pool as a replica. Whatever its own traffic does, the view of its pool is
the replay of the publications that it handled, as long as no addition meets a backend of
its server that was used or marked. -/
namespace WorkerReplica

open BackendPool TransitionSystems PoolSelection PoolSteps PoolServerSet RequestTargets
  SubscriberProtocol PoolView WorkerSubscriber WorkerRouting

variable {Uri : Type} [DecidableEq Uri]

structure Replica (p : Pool Uri) : Prop where
  serving : Serving p
  servers : p.servers.Nodup

omit [DecidableEq Uri] in
theorem Replica.distinct {p : Pool Uri} (hp : Replica p) : Distinct p :=
  ⟨hp.serving.rotating.wellFormed, hp.servers⟩

omit [DecidableEq Uri] in
theorem initial_replica (h : BackendHeap Uri) : Replica (initial h).pool :=
  ⟨initial_serving h, List.nodup_nil⟩

/-- An `add_server` meets no backend of its server, or one as it was made. -/
def FreshMessage (hyper : UriText Uri) (w : State Uri) : Event → Prop
  | .message (.addServer t) => ∀ u ∈ hyper.fromStr t, FreshAdd w.pool (.add (serverOf u))
  | _ => True

instance (hyper : UriText Uri) (w : State Uri) : (e : Event) → Decidable (FreshMessage hyper w e)
  | .message (.addServer t) =>
    inferInstanceAs (Decidable (∀ u ∈ hyper.fromStr t, FreshAdd w.pool (.add (serverOf u))))
  | .message (.markServerDown _) | .message (.markServerActive _) | .request | .complete _ _ =>
    inferInstanceAs (Decidable True)

def messagesOf (es : List Event) : List Request :=
  es.filterMap fun e => match e with
    | .message r => some r
    | _ => none

variable {hyper : UriText Uri} {w : State Uri}

theorem messagesOf_traffic {e : Event} (he : ∀ r, e ≠ .message r) (es : List Event) :
    messagesOf (e :: es) = messagesOf es := by
  cases e with
  | message r => exact absurd rfl (he r)
  | request | complete => rfl

omit [DecidableEq Uri] in
theorem freshMessage_traffic {e : Event} (he : ∀ r, e ≠ .message r) : FreshMessage hyper w e := by
  cases e with
  | message r => exact absurd rfl (he r)
  | request | complete => trivial

theorem enabled_traffic (hw : Replica w.pool) {e : Event} (he : ∀ r, e ≠ .message r) :
    Enabled hyper w e := by
  cases e with
  | message r => exact absurd rfl (he r)
  | request => exact (get_isSome_iff _).mpr hw.serving.rotating.inside.returns
  | complete => trivial

theorem event_replica (hw : Replica w.pool) {e : Event} (hf : FreshMessage hyper w e) :
    Replica (next hyper w e).pool := by
  refine ⟨event_serving hw.serving e, ?_⟩
  apply pool_invariant hyper (I := fun p => p.servers.Nodup) hw.servers
  intro op hop
  refine (next_distinct hw.distinct ?_).servers
  cases op with
  | add s =>
    obtain ⟨t, u, rfl, hu, rfl⟩ := poolOp_add hyper hop
    exact hf u hu
  | remove | find | get | markDown | markActive | incSuccess | incFailure => trivial

theorem view_quiet (hyper : UriText Uri) (hw : WellFormed w.pool) {e : Event}
    (he : ∀ r, e ≠ .message r) : view (next hyper w e).pool = view w.pool := by
  have hkeep : ∀ op : PoolOp Uri, (∀ s, op ≠ .add s ∧ op ≠ .remove s) →
      (∀ b st, stateAfter b st op = st) → view (PoolOp.next w.pool op) = view w.pool := by
    intro op hop hst
    rw [view_next hw hop]
    simp only [hst]
    rfl
  apply pool_invariant hyper (I := fun p => view p = view w.pool) rfl
  intro op hop
  cases e with
  | message r => exact absurd rfl (he r)
  | request =>
    obtain rfl := Option.some.inj hop
    exact hkeep .get (by simp) fun _ _ => rfl
  | complete k outcome =>
    obtain ⟨b, -, rfl⟩ := Option.map_eq_some_iff.mp hop
    rcases doneOp_cases Uri b outcome with h | h
    · rw [h]
      exact hkeep (.incFailure b) (by simp) fun _ _ => rfl
    · rw [h]
      exact hkeep (.incSuccess b) (by simp) fun _ _ => rfl

theorem view_traffic (hyper : UriText Uri) (hw : Replica w.pool) {e : Event}
    (he : ∀ r, e ≠ .message r) : view (next hyper w e).pool = view w.pool :=
  view_quiet hyper hw.distinct.wellFormed he

theorem view_marked {u : Uri} {st : ServerState}
    {op : Backend → PoolOp Uri}
    (hop : ∀ b ∈ w.pool.inner.backends,
      view (PoolOp.next w.pool (op b)) = setState (b.server w.pool.heap) st (view w.pool)) :
    view (((w.pool.find (serverOf u)).map op |>.map (PoolOp.next w.pool)).getD w.pool) =
      setState (serverOf u) st (view w.pool) := by
  cases hf : w.pool.find (serverOf u) with
  | some b =>
    obtain ⟨hb, hs⟩ := find_server hf
    rw [← hs]
    exact hop b hb
  | none =>
    refine (setState_of_notMem ?_).symm
    rw [view_servers, mem_servers]
    rintro ⟨b, hb, hs⟩
    have hno := List.find?_eq_none.mp hf b hb
    simp only [decide_eq_true_eq] at hno
    exact hno hs

theorem view_message (hrt : hyper.RoundTrip) (hw : Replica w.pool) {p : Publication Uri}
    (hf : FreshMessage hyper w (.message (p.request hyper))) :
    Enabled hyper w (.message (p.request hyper)) ∧
      view (next hyper w (.message (p.request hyper))).pool = applied (view w.pool) p := by
  refine ⟨enabled_publication hrt w p, ?_⟩
  cases p with
  | newServer u =>
    have hu := hrt u
    rw [pool_next]
    simp only [Publication.request, poolOp, hu, Option.map_some, Option.getD_some]
    exact view_add hw.distinct.wellFormed (hf u hu)
  | serverStateDown u =>
    have hu := hrt u
    rw [pool_next]
    simp only [Publication.request, poolOp, hu, Option.bind_some]
    exact view_marked fun b hb => view_mark hw.distinct hb .down
  | serverStateActive u =>
    have hu := hrt u
    rw [pool_next]
    simp only [Publication.request, poolOp, hu, Option.bind_some]
    exact view_marked fun b hb => view_mark hw.distinct hb .active

/-- A run of a worker never ends early, and its view replays the publications handled. -/
theorem view_run (hrt : hyper.RoundTrip) (hw : Replica w.pool) {es : List Event}
    (hf : (workerSystem hyper).Always (FreshMessage hyper) w es) {ps : List (Publication Uri)}
    (hm : messagesOf es = ps.map fun p => p.request hyper) :
    (workerSystem hyper).Valid w es ∧ Replica ((workerSystem hyper).run w es).pool ∧
      view ((workerSystem hyper).run w es).pool = replay applied (view w.pool) ps := by
  induction es generalizing w ps with
  | nil =>
    obtain rfl : ps = [] := List.map_eq_nil_iff.mp hm.symm
    exact ⟨trivial, hw, rfl⟩
  | cons e es ih =>
    have hnext := event_replica hw hf.1
    by_cases he : ∃ r, e = .message r
    · obtain ⟨r, rfl⟩ := he
      obtain ⟨p, ps, rfl, hr, hps⟩ := List.map_eq_cons_iff.mp hm.symm
      subst hr
      obtain ⟨henabled, hview⟩ := view_message hrt hw hf.1
      obtain ⟨hvalid, hrep, hrest⟩ := ih hnext hf.2 hps.symm
      refine ⟨⟨henabled, hvalid⟩, hrep, hrest.trans ?_⟩
      rw [hview]
      rfl
    · have he : ∀ r, e ≠ .message r := not_exists.mp he
      have hm : messagesOf es = _ := (messagesOf_traffic he es).symm.trans hm
      obtain ⟨hvalid, hrep, hrest⟩ := ih hnext hf.2 hm
      refine ⟨⟨enabled_traffic hw he, hvalid⟩, hrep, hrest.trans ?_⟩
      rw [view_traffic hyper hw he]

end WorkerReplica

/-! A worker that handles the manager's publications in order has the manager's servers and
states after each of them, if no url is posted twice. -/
namespace ReplicaAgreement

open BackendPool TransitionSystems PoolServerSet RequestTargets SubscriberProtocol PoolView
  HealthMonitor ManagementApi ManagerProcess ManagerRecords WorkerReplica

section Added

variable {Uri : Type}

def added (ps : List (Publication Uri)) : List Uri :=
  ps.filterMap fun p => match p with
    | .newServer url => some url
    | .serverStateDown _ | .serverStateActive _ => none

variable [DecidableEq Uri]

theorem mem_replay {ps : List (Publication Uri)} {v : View Uri} {s : Server Uri}
    (hs : s ∈ (replay applied v ps).map Prod.fst) :
    s ∈ v.map Prod.fst ∨ ∃ u ∈ added ps, s = serverOf u := by
  induction ps generalizing v with
  | nil => exact Or.inl hs
  | cons p ps ih =>
    rcases ih hs with h | ⟨u, hu, rfl⟩
    · cases p with
      | newServer u =>
        rw [applied] at h
        split at h
        · exact Or.inl h
        · rw [List.map_append, List.mem_append] at h
          rcases h with h | h
          · exact Or.inl h
          · exact Or.inr ⟨u, by simp [added], by simpa using h⟩
      | serverStateDown u | serverStateActive u =>
        rw [applied, setState_servers] at h
        exact Or.inl h
    · refine Or.inr ⟨u, ?_, rfl⟩
      rw [added, List.filterMap_cons]
      split
      · exact hu
      · exact List.mem_cons_of_mem _ hu

theorem fresh_of_replay {p : Pool Uri} {ps : List (Publication Uri)}
    (hp : view p = replay applied [] ps) {u : Uri} (hu : u ∉ added ps) :
    FreshAdd p (.add (serverOf u)) := by
  intro b hb hs
  have hin : serverOf u ∈ (replay applied [] ps).map Prod.fst := by
    rw [← hp, view_servers]
    exact mem_servers.mpr ⟨b, hb, hs⟩
  rcases mem_replay hin with h | ⟨v, hv, he⟩
  · cases h
  · cases he
    exact absurd hv hu

end Added

section Manager

variable {Uri H : Type} [DecidableEq Uri] [DecidableEq H] {S : Setting Uri H}

omit [DecidableEq Uri] [DecidableEq H] in
theorem added_healthRun (c : Core Uri H) (bs : List Backend) :
    added ((healthRun S c bs).2.map Prod.fst) = [] := by
  induction bs generalizing c with
  | nil => rfl
  | cons b bs ih =>
    have hone : added ((checkBackend S c b).2.map Prod.fst) = [] := by
      unfold checkBackend checkStart
      cases S.hyper.fromStr (S.hyper.display (b.server c.pool.heap).url ++ S.config.uriPath) with
      | some url => rfl
      | none => by_cases ha : b.isActive c.pool.heap = true <;> simp [ha, added]
    simp only [healthRun, List.map_append]
    rw [added, List.filterMap_append]
    exact List.append_eq_nil_iff.mpr ⟨hone, ih _⟩

/-- Only a post publishes a new server, namely the one that it posts. -/
theorem added_published (c : Core Uri H) (e : Event) :
    added ((published S c e).map Prod.fst) = (postedBy S e).toList := by
  cases e with
  | api req =>
    simp only [published, step, postedBy]
    cases hr : call S.hyper S.serde c.pool req with
    | none => rw [posted_of_panic hr]; rfl
    | some r =>
      rcases call_cases hr with ⟨u, hu, hpub, -⟩ | ⟨hu, hpub, -⟩ <;> simp [hu, hpub, added]
  | timer => exact added_healthRun (S := S) c c.pool.all
  | checked k res =>
    change added ((checked S c k res).2.map Prod.fst) = []
    unfold checked
    cases c.pending[k]? with
    | none => rfl
    | some b =>
      rcases checkDone_cases S.hash S.config
        { heap := c.pool.heap, health := c.health } b res with
        ⟨-, hp⟩ | ⟨-, hp⟩ | ⟨-, hp⟩ <;> simp [hp, added]

def publications (S : Setting Uri H) (c : Core Uri H) (es : List Event) :
    List (Publication Uri) :=
  ((coreSystem S).observe (published S) c es).map Prod.fst

theorem entries_publications (c : Core Uri H) (es : List Event) :
    (coreSystem S).observe (fun c e => entries (published S c e)) c es =
        ((coreSystem S).observe (published S) c es).map (fun e => (e.1, view e.2)) ∧
      ((coreSystem S).observe (fun c e => entries (published S c e)) c es).map Prod.fst =
        publications S c es := by
  have hmap := (coreSystem S).map_observe (fun e : Publication Uri × Pool Uri => (e.1, view e.2))
    (published S) c es
  refine ⟨hmap.symm, ?_⟩
  rw [publications]
  refine (congrArg (List.map Prod.fst) hmap.symm).trans ?_
  rw [List.map_map]
  rfl

theorem added_publications (c : Core Uri H) (es : List Event) :
    added (publications S c es) = es.filterMap (postedBy S) := by
  rw [publications, System.map_observe, added, System.filterMap_observe,
    ← (coreSystem S).observe_events (postedBy S) c es]
  refine System.observe_congr (System.always_of_forall ?_ c)
  exact fun e _ c => added_published c e

theorem freshPost_run {c : Core Uri H} (hc : Managed c) {done : List (Publication Uri)}
    (hv : view c.pool = replay applied [] done) {es : List Event}
    (honce : (es.filterMap (postedBy S)).Nodup)
    (hnew : ∀ u ∈ es.filterMap (postedBy S), u ∉ added done) :
    (coreSystem S).Always (FreshPost S) c es := by
  induction es generalizing c done with
  | nil => trivial
  | cons e es ih =>
    have hfresh : FreshPost S c e := by
      intro u hu
      exact fresh_of_replay hv (hnew u (List.mem_filterMap.mpr ⟨e, by simp, hu⟩))
    have hrec := next_recorded hc hfresh
    have hview : view (next S c e).pool =
        replay applied [] (done ++ (published S c e).map Prod.fst) := by
      rw [replay_append, ← hv, hrec.records.replay_eq, entries, List.map_map]
      rfl
    refine ⟨hfresh, ih hrec.managed hview ?_ ?_⟩
    · exact honce.sublist ((List.sublist_cons_self e es).filterMap _)
    · intro u hu hin
      rw [added, List.filterMap_append, List.mem_append] at hin
      rcases hin with hin | hin
      · refine hnew u ?_ hin
        exact ((List.sublist_cons_self e es).filterMap _).subset hu
      · -- the step itself added `u`, and it is posted again later
        have hpost : postedBy S e = some u :=
          Option.mem_toList.mp (added_published (S := S) c e ▸ hin)
        rw [List.filterMap_cons, hpost] at honce
        exact (List.nodup_cons.mp honce).1 hu

end Manager

section Worker

open WorkerSubscriber

variable {Uri : Type} [DecidableEq Uri] {hyper : UriText Uri}

theorem freshMessage_run (hrt : hyper.RoundTrip) {w : State Uri} (hw : Replica w.pool)
    {done ps : List (Publication Uri)} (hv : view w.pool = replay applied [] done)
    (honce : (added (done ++ ps)).Nodup) {ws : List WorkerSubscriber.Event}
    (hm : messagesOf ws = ps.map fun p => p.request hyper) :
    (workerSystem hyper).Always (FreshMessage hyper) w ws := by
  induction ws generalizing w done ps with
  | nil => trivial
  | cons e ws ih =>
    by_cases he : ∃ r, e = .message r
    · obtain ⟨r, rfl⟩ := he
      obtain ⟨p, ps, rfl, hr, hps⟩ := List.map_eq_cons_iff.mp hm.symm
      subst hr
      have hfresh : FreshMessage hyper w (.message (p.request hyper)) := by
        cases p with
        | newServer u =>
          intro v hv'
          have huv : u = v := Option.some.inj ((hrt u).symm.trans hv')
          subst huv
          apply fresh_of_replay hv
          rw [added, List.filterMap_append] at honce
          intro hin
          exact (List.nodup_append.mp honce).2.2 u hin u (by simp) rfl
        | serverStateDown | serverStateActive => trivial
      have hview : view (next hyper w (.message (p.request hyper))).pool =
          replay applied [] (done ++ [p]) := by
        rw [(view_message hrt hw hfresh).2, hv, replay_append]
        rfl
      refine ⟨hfresh, ih (event_replica hw hfresh) hview ?_ hps.symm⟩
      rwa [List.append_assoc]
    · have he : ∀ r, e ≠ .message r := not_exists.mp he
      have hm : messagesOf ws = _ := (messagesOf_traffic he ws).symm.trans hm
      have hfresh : FreshMessage hyper w e := freshMessage_traffic he
      have hview := view_traffic hyper hw he
      exact ⟨hfresh, ih (event_replica hw hfresh) (hview.trans hv) honce hm⟩

end Worker

/-- Replica agreement. For every run of the manager that posts no url twice, under any
configuration, a worker that starts empty and handles the first publications in order,
whatever it proxies meanwhile, ends with the servers and states that the manager's pool had
right after the last of them. -/
theorem replicas_agree {Uri H : Type} [DecidableEq Uri] [DecidableEq H] (S : Setting Uri H)
    (hrt : S.hyper.RoundTrip) (h h' : BackendHeap Uri) (es : List Event)
    (honce : (es.filterMap (postedBy S)).Nodup) (i : ℕ)
    (hi : i < ((coreSystem S).observe (published S) (initial h) es).length)
    (ws : List WorkerSubscriber.Event)
    (hws : messagesOf ws = ((publications S (initial h) es).take (i + 1)).map
      fun p => p.request S.hyper) :
    (WorkerSubscriber.workerSystem S.hyper).Valid (WorkerSubscriber.initial h') ws ∧
    view ((WorkerSubscriber.workerSystem S.hyper).run (WorkerSubscriber.initial h') ws).pool =
      view (((coreSystem S).observe (published S) (initial h) es).get ⟨i, hi⟩).2 := by
  have hstart : view (initial h : Core Uri H).pool = replay applied [] [] := rfl
  have hfresh := freshPost_run (initial_managed h) hstart honce (by simp [added])
  have hrecords := (run_records (initial_managed h) hfresh).2
  obtain ⟨hentries, hfst⟩ := entries_publications (S := S) (initial h) es
  have hentry := List.getElem?_eq_getElem hi
  have hsnapshot := hrecords.at (by rw [hentries, List.getElem?_map, hentry]; rfl)
  rw [List.map_take, hfst] at hsnapshot
  have hadded : (added ((publications S (initial h) es).take (i + 1))).Nodup := by
    rw [← added_publications (S := S) (initial h)] at honce
    exact honce.sublist ((List.take_sublist _ _).filterMap _)
  have hstart' : view (WorkerSubscriber.initial h').pool = replay applied [] [] := rfl
  have hmessages := freshMessage_run hrt (initial_replica h') hstart' hadded hws
  obtain ⟨hvalid, -, hview⟩ := view_run hrt (initial_replica h') hmessages hws
  exact ⟨hvalid, hview.trans hsnapshot.symm⟩

section Instance

def bodyOf (url : String) : List UInt8 :=
  ("\x7b\"url\":\"" ++ url ++ "\"\x7d").toList.map fun c => c.toNat.toUInt8

def knownUrls (urls : List String) : Setting String (InnerBackend String) where
  hyper := plainText
  serde :=
    { fromSlice := fun body =>
        match urls.find? fun url => bodyOf url = body with
        | some url => .ok { url := url, links := none }
        | none => .error "expected value at line 1 column 1"
      indexToStringPretty := fun index => index.about
      poolServersToStringPretty := fun _ => "\x7b\x7d" }
  hash := id
  config := HealthCheck.default

def post (url : String) : Event :=
  .api { method := .post, path := "/servers", body := bodyOf url }

def failingRun : List Event :=
  [post "http://a", .timer, .timer, .timer, .checked 0 .error, .checked 0 (.response 500),
    .checked 0 .error]

theorem replicas_agree_failing :
    (WorkerSubscriber.workerSystem plainText).Valid (WorkerSubscriber.initial blankHeap)
      [.message (.addServer "http://a"), .request, .message (.markServerDown "http://a"),
        .complete 0 .error] ∧
    view ((WorkerSubscriber.workerSystem plainText).run (WorkerSubscriber.initial blankHeap)
      [.message (.addServer "http://a"), .request, .message (.markServerDown "http://a"),
        .complete 0 .error]).pool =
      view (((coreSystem (knownUrls ["http://a"])).observe (published (knownUrls ["http://a"]))
        (initial blankHeap) failingRun).get ⟨1, by decide⟩).2 :=
  replicas_agree (knownUrls ["http://a"]) (fun _ => rfl) blankHeap blankHeap failingRun (by decide)
    1 (by decide) _ (by decide)

end Instance

end ReplicaAgreement
