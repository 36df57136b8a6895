import Weldr.ComposedUrls
import Weldr.ReplicaAgreement

/-! Whether a request can make a worker panic. The management API accepts every text that is
a `Uri`; the proxy needs the urls of its servers to be absolute. -/
namespace RouteSafety

open TransitionSystems BackendPool PoolSteps SubscriberProtocol PoolView WorkerSubscriber
  WorkerRouting WorkerReplica ManagerProcess ReplicaAgreement RequestTargets HttpHeaders Proxy
  ComposedUrls

section Pools

variable {Uri : Type} [DecidableEq Uri]

variable {hyper : UriText Uri} {es : List WorkerSubscriber.Event}

def AddedBy (hyper : UriText Uri) (es : List WorkerSubscriber.Event) (p : Pool Uri) : Prop :=
  ∀ b ∈ p.inner.backends, ∃ t u, WorkerSubscriber.Event.message (.addServer t) ∈ es ∧
    hyper.fromStr t = some u ∧ b.server p.heap = serverOf u

theorem event_addedBy {w : State Uri} {e : WorkerSubscriber.Event} (hw : Serving w.pool)
    (ha : AddedBy hyper es w.pool) (he : e ∈ es) :
    AddedBy hyper es (WorkerSubscriber.next hyper w e).pool := by
  apply pool_invariant hyper ha
  intro op hop b hb
  have hwf := hw.rotating.wellFormed
  rcases mem_next hwf hb with hold | ⟨s, rfl, hs⟩
  · rw [next_server hwf op (hwf.allocated b hold)]
    exact ha b hold
  · obtain ⟨t, u, rfl, hu, rfl⟩ := poolOp_add hyper hop
    exact ⟨t, u, he, hu, by rw [Backend.server, hs]; rfl⟩

theorem run_addedBy (h : BackendHeap Uri) (es : List WorkerSubscriber.Event) :
    AddedBy hyper es ((workerSystem hyper).run (WorkerSubscriber.initial h) es).pool := by
  have hrun := System.run_invariant (T := workerSystem hyper)
    (I := fun w => Serving w.pool ∧ AddedBy hyper es w.pool) (P := fun _ e => e ∈ es)
    (fun _ e hw he => ⟨event_serving hw.1 e, event_addedBy hw.1 hw.2 he⟩)
    ⟨initial_serving h, fun _ hb => absurd hb List.not_mem_nil⟩
    (System.always_of_forall (fun _ he _ => he) (WorkerSubscriber.initial h))
  exact hrun.2

end Pools

section Runs

variable {Uri Headers : Type} [DecidableEq Uri] {hyper : HyperUri Uri}
  {lib : HyperHeaders Headers}

def HandlesAll (hyper : HyperUri Uri) (lib : HyperHeaders Headers) (w : State Uri) : Prop :=
  ∀ (req : ServerRequest Uri Headers) t, hyper.fromStr t = some req.uri →
    none ∉ Proxy.call hyper lib w req

theorem handlesAll_of_absolute (hprints : hyper.Prints) (habsolute : hyper.ReadsAbsolute)
    (hpaths : hyper.TargetPaths) {w : State Uri} {es : List WorkerSubscriber.Event}
    (ha : AddedBy hyper.toUriText es w.pool)
    (habs : ∀ t u, WorkerSubscriber.Event.message (.addServer t) ∈ es →
      hyper.fromStr t = some u → hyper.Absolute u) : HandlesAll hyper lib w := by
  intro req t ht hpanic
  obtain ⟨s, hs, hnone⟩ := List.mem_map.mp hpanic
  obtain ⟨b, hb, -, rfl⟩ := dispatched_active hs
  obtain ⟨t', u, hin, hu, hserver⟩ := ha b hb
  obtain ⟨v, hv, hhost⟩ := composed_parses hprints habsolute hpaths (habs t' u hin hu) ht
  rw [hserver] at hnone
  obtain ⟨r, hr, -⟩ := backendRequest_sent lib (mapRequest lib req) (serverOf u) hv hhost
  rw [hr] at hnone
  cases hnone

/-- A worker that has just pooled a url without a scheme panics sooner or later, even if
nothing but requests reach it. -/
theorem panics_of_relative (lib : HyperHeaders Headers) (hrt : hyper.RoundTrip)
    (hprints : hyper.Prints) (hrelative : hyper.ReadsRelative) (horigin : hyper.SplitsOrigin)
    {w : State Uri} (hw : Serving w.pool) {b : Backend} (hb : b ∈ w.pool.inner.backends) {u : Uri}
    (hread : b.read w.pool.heap = InnerBackend.new (serverOf u))
    (hscheme : hyper.scheme u = none) :
    ∃ n, (workerSystem hyper.toUriText).Valid w (List.replicate n .request) ∧
      ¬ HandlesAll hyper lib
        ((workerSystem hyper.toUriText).run w (List.replicate n .request)) := by
  have hact : b.isActive w.pool.heap = true := by simp [Backend.isActive, hread, InnerBackend.new]
  have hserver : b.server w.pool.heap = serverOf u := by rw [Backend.server, hread]; rfl
  obtain ⟨n, hvalid, hsent⟩ := exists_dispatched hyper.toUriText hw hb hact
  obtain ⟨pre, e, post, hsplit, hs⟩ := System.mem_observe hsent
  obtain ⟨-, hpre, hrest⟩ := List.replicate_eq_append_iff.mp hsplit
  obtain rfl : e = .request := List.eq_of_mem_replicate (hrest ▸ List.mem_cons_self)
  rw [hsplit] at hvalid
  refine ⟨pre.length, ?_, ?_⟩
  · rw [← hpre]
    exact (((workerSystem hyper.toUriText).always_append _ _ _ _).mp hvalid).1
  · rw [← hpre]
    intro hall
    obtain ⟨root, hroot⟩ := Option.isSome_iff_exists.mp hrelative.root
    let req : ServerRequest Uri Headers :=
      { method := .get, uri := root, version := .http11, headers := lib.new, body := [] }
    apply hall req "/" hroot
    rw [hserver] at hs
    rw [call_of_dispatched req hs, List.mem_singleton, eq_comm]
    exact backendRequest_panics rfl fun v hv =>
      composed_root hprints hrelative horigin (hrt u) hscheme hroot hv

end Runs

section Manager

variable {Uri H Headers : Type} [DecidableEq Uri] [DecidableEq H] {S : Setting Uri H}

omit [DecidableEq Uri] in
theorem mem_added {ps : List (Publication Uri)} {u : Uri} :
    u ∈ added ps ↔ Publication.newServer u ∈ ps := by
  rw [added, List.mem_filterMap]
  constructor
  · rintro ⟨p, hp, hu⟩
    cases p with
    | newServer v =>
      obtain rfl := Option.some.inj hu
      exact hp
    | serverStateDown | serverStateActive => cases hu
  · intro hp
    exact ⟨_, hp, rfl⟩

def delivered (hyper : UriText Uri) (ps : List (Publication Uri)) :
    List WorkerSubscriber.Event := ps.map fun p => .message (p.request hyper)

omit [DecidableEq Uri] in
theorem messagesOf_delivered (hyper : UriText Uri) (ps : List (Publication Uri)) (n : ℕ) :
    messagesOf (delivered hyper ps ++ List.replicate n .request) =
      ps.map fun p => p.request hyper := by
  induction ps with
  | nil => induction n with
    | zero => rfl
    | succ n ih => exact ih
  | cons p ps ih => exact congrArg (p.request hyper :: ·) ih

theorem delivered_valid {hyper : UriText Uri} (hrt : hyper.RoundTrip)
    (ps : List (Publication Uri)) (w : State Uri) :
    (workerSystem hyper).Valid w (delivered hyper ps) := by
  apply System.always_of_forall
  intro e he w
  obtain ⟨p, -, rfl⟩ := List.mem_map.mp he
  exact enabled_publication hrt w p

theorem pooled_delivered {hyper : UriText Uri} (hrt : hyper.RoundTrip) (h : BackendHeap Uri)
    (ps : List (Publication Uri)) (u : Uri) :
    let w := (workerSystem hyper).run (WorkerSubscriber.initial h)
      (delivered hyper (ps ++ [.newServer u]))
    ∃ b ∈ w.pool.inner.backends, b.read w.pool.heap = InnerBackend.new (serverOf u) := by
  let w := (workerSystem hyper).run (WorkerSubscriber.initial h) (delivered hyper ps)
  have hlast : (workerSystem hyper).run (WorkerSubscriber.initial h)
      (delivered hyper (ps ++ [.newServer u])) =
        WorkerSubscriber.next hyper w (.message (.addServer (hyper.display u))) := by
    rw [delivered, List.map_append, System.run_append]
    rfl
  have hpool : (WorkerSubscriber.next hyper w (.message (.addServer (hyper.display u)))).pool =
      (w.pool.add (serverOf u)).1 := by
    simp [WorkerSubscriber.next, SubscriberImpl.handle, SubscriberImpl.addServer, hrt u, serverOf]
  intro w'
  have hw' : w'.pool = (w.pool.add (serverOf u)).1 := (congrArg State.pool hlast).trans hpool
  rw [hw']
  exact add_fresh _ _

/-- Any worker that starts empty and handles publications of a run of the manager in order, be
it from a late one on or with some lost, routes all requests without a panic, whatever it
proxies meanwhile. -/
def Routable (S : Setting Uri H) (hyper : HyperUri Uri) (lib : HyperHeaders Headers)
    (h h' : BackendHeap Uri) (es : List ManagerProcess.Event) : Prop :=
  ∀ ws, (workerSystem S.hyper).Valid (WorkerSubscriber.initial h') ws →
    (messagesOf ws).Sublist ((publications S (ManagerProcess.initial h) es).map
      fun p => p.request S.hyper) →
    HandlesAll hyper lib ((workerSystem S.hyper).run (WorkerSubscriber.initial h') ws)

theorem scheme_of_routable {hyper : HyperUri Uri} {lib : HyperHeaders Headers}
    (hS : S.hyper = hyper.toUriText) (hrt : hyper.RoundTrip) (hprints : hyper.Prints)
    (hrelative : hyper.ReadsRelative) (horigin : hyper.SplitsOrigin) {h h' : BackendHeap Uri}
    {es : List ManagerProcess.Event} (hsafe : Routable S hyper lib h h' es) :
    ∀ u ∈ es.filterMap (postedBy S), (hyper.scheme u).isSome := by
  intro u hu
  by_contra hscheme
  rw [← added_publications (S := S) (ManagerProcess.initial h)] at hu
  obtain ⟨ps, qs, hps⟩ := List.append_of_mem (mem_added.mp hu)
  -- the worker handles the publications up to the one of `u`, then requests only
  obtain ⟨b, hb, hread⟩ := pooled_delivered hrt h' ps u
  obtain ⟨n, hvalid, hpanics⟩ := panics_of_relative lib hrt hprints hrelative horigin
    (run_serving h' _) hb hread (Option.not_isSome_iff_eq_none.mp hscheme)
  rw [Routable, hS] at hsafe
  apply hpanics
  rw [← System.run_append]
  refine hsafe _ ((System.always_append _ _ _ _ _).mpr ⟨delivered_valid hrt _ _, hvalid⟩) ?_
  rw [messagesOf_delivered, hps]
  apply List.Sublist.map
  simp

theorem routable_of_absolute {hyper : HyperUri Uri} {lib : HyperHeaders Headers}
    (hS : S.hyper = hyper.toUriText) (hrt : hyper.RoundTrip) (hprints : hyper.Prints)
    (habsolute : hyper.ReadsAbsolute) (hpaths : hyper.TargetPaths) {h h' : BackendHeap Uri}
    {es : List ManagerProcess.Event}
    (habs : ∀ u ∈ es.filterMap (postedBy S), hyper.Absolute u) :
    Routable S hyper lib h h' es := by
  rw [← added_publications (S := S) (ManagerProcess.initial h)] at habs
  rw [Routable, hS]
  intro ws _ hws
  refine handlesAll_of_absolute hprints habsolute hpaths (run_addedBy h' ws) ?_
  intro t u hin hu
  have hmessage : Request.addServer t ∈ messagesOf ws := List.mem_filterMap.mpr ⟨_, hin, rfl⟩
  obtain ⟨p, hp, hpt⟩ := List.mem_map.mp (hws.subset hmessage)
  cases p with
  | newServer v =>
    obtain rfl : hyper.display v = t := Request.addServer.inj hpt
    obtain rfl : v = u := Option.some.inj ((hrt v).symm.trans hu)
    exact habs v (mem_added.mpr hp)
  | serverStateDown | serverStateActive => cases hpt

/-- What the management API accepts in a run is routable only if all of it has a scheme. That
is also enough where the urls with a scheme are in well-formed absolute form. -/
theorem accepted_urls_routable_iff (S : Setting Uri H) (hyper : HyperUri Uri)
    (lib : HyperHeaders Headers) (hS : S.hyper = hyper.toUriText) (hrt : hyper.RoundTrip)
    (hprints : hyper.Prints) (habsolute : hyper.ReadsAbsolute) (hpaths : hyper.TargetPaths)
    (hrelative : hyper.ReadsRelative) (horigin : hyper.SplitsOrigin) (h h' : BackendHeap Uri)
    (es : List ManagerProcess.Event) :
    (Routable S hyper lib h h' es → ∀ u ∈ es.filterMap (postedBy S), (hyper.scheme u).isSome) ∧
    ((∀ u ∈ es.filterMap (postedBy S), (hyper.scheme u).isSome → hyper.Absolute u) →
      (Routable S hyper lib h h' es ↔
        ∀ u ∈ es.filterMap (postedBy S), (hyper.scheme u).isSome)) := by
  have hscheme : Routable S hyper lib h h' es → _ :=
    scheme_of_routable hS hrt hprints hrelative horigin
  refine ⟨hscheme, fun hregular => ⟨hscheme, fun hall => ?_⟩⟩
  exact routable_of_absolute hS hrt hprints habsolute hpaths fun u hu => hregular u hu (hall u hu)

end Manager

section Instance

open SourceText HealthMonitor

def sourceSetting (urls : List String) : Setting SourceUri (InnerBackend SourceUri) :=
  { hyper := sourceText.toUriText
    serde := (knownUrls urls).serde
    hash := id
    config := HealthCheck.default }

theorem absolute_url_routable :
    HandlesAll sourceText fieldMap ((workerSystem sourceText.toUriText).run
      (WorkerSubscriber.initial sourceHeap)
      [.message (.addServer "http://127.0.0.1:6000"), .request]) := by
  have hposted : ([post "http://127.0.0.1:6000"].filterMap
      (postedBy (sourceSetting ["http://127.0.0.1:6000"]))) = [serverUri] := by decide
  have hroutable := accepted_urls_routable_iff (sourceSetting ["http://127.0.0.1:6000"])
    sourceText fieldMap rfl sourceText_roundTrip sourceText_prints sourceText_readsAbsolute
    sourceText_targetPaths sourceText_readsRelative sourceText_splitsOrigin sourceHeap sourceHeap
    [post "http://127.0.0.1:6000"]
  refine (hroutable.2 ?_).mpr (by decide)
    [.message (.addServer "http://127.0.0.1:6000"), .request] (by decide) (by decide)
  intro u hu _
  obtain rfl := List.mem_singleton.mp (hposted ▸ hu)
  exact ⟨_, _, _, serverUri_absolute⟩

def srvUri : SourceUri := (sourceText.fromStr "/srv").get rfl

theorem relative_url_panics :
    publications (sourceSetting ["/srv"]) (ManagerProcess.initial sourceHeap) [post "/srv"] =
        [.newServer srvUri] ∧
      (Proxy.call sourceText fieldMap ((workerSystem sourceText.toUriText).run
        (WorkerSubscriber.initial sourceHeap) [.message (.addServer "/srv")])
        (getOf rootUri)).map Option.isSome = [false] := by
  decide

end Instance

end RouteSafety
