import Weldr.ClusterAgreement
import Weldr.ProxyChain

/-! A client's request at a worker of the whole: which server it goes to, and with which target
and headers, however far the worker is behind the manager. -/
namespace ClusterForwarding

open BackendPool PoolServerSet PoolView HttpHeaders RequestTargets ManagerProcess ReplicaAgreement
  Proxy ComposedUrls HeaderFiltering ViaChain Cluster ClusterDelivery ClusterAgreement

section Requests

variable {Uri Headers : Type} {hyper : HyperUri Uri} {lib : HyperHeaders Headers}
  {clientReq r : ClientRequest Uri Headers} {server : Server Uri}

theorem backendRequest_uri (h : backendRequest hyper lib clientReq server = some r) :
    hyper.fromStr (composedUrl hyper server.url clientReq.uri) = some r.uri := by
  obtain ⟨uri, huri, hr⟩ := Option.bind_eq_some_iff.mp h
  by_cases hmap : server.mapHost = true
  · rw [if_pos hmap] at hr
    obtain ⟨host, -, hr⟩ := Option.bind_eq_some_iff.mp hr
    obtain rfl := Option.some.inj hr
    exact huri
  · rw [if_neg hmap] at hr
    obtain rfl := Option.some.inj hr
    exact huri

theorem oneLine_portText (port : Option ℕ) : OneLine (portText port) := by
  unfold portText
  split
  · decide
  · decide
  · decide
  · rename_i port _ _
    refine OneLine.append (by decide) ?_
    have hdigit : ∀ c ∈ (toString port).toList, c.isDigit := by
      intro c hc
      rw [Nat.toString_eq_ofList_toDigits, String.toList_ofList] at hc
      exact Nat.isDigit_of_mem_toDigits (by decide) (by decide) hc
    exact ⟨fun hc => absurd (hdigit _ hc) (by decide), fun hc => absurd (hdigit _ hc) (by decide)⟩

/-- A server with `map_host` gets a `Host` of its own, whatever the client sent. -/
theorem backendRequest_host (hsets : lib.Sets) (hdisplay : hyper.DisplaysHost)
    (hmap : server.mapHost = true) (h : backendRequest hyper lib clientReq server = some r) :
    ∃ host, hyper.host r.uri = some host ∧ (OneLine host →
      lib.getRaw r.headers "Host" = some [(host ++ portText (hyper.port r.uri)).toUTF8]) := by
  obtain ⟨uri, huri, hr⟩ := Option.bind_eq_some_iff.mp h
  rw [if_pos hmap] at hr
  obtain ⟨host, hhost, hr⟩ := Option.bind_eq_some_iff.mp hr
  obtain rfl := Option.some.inj hr
  refine ⟨host, hhost, fun hone => ?_⟩
  have hline : OneLine (hyper.displayHost host (hyper.port uri)) := by
    rw [hdisplay]
    exact hone.append (oneLine_portText _)
  refine (hsets.same _ .host _ _ hline rfl).trans ?_
  rw [hdisplay]

/-- What the backend of a posted url is sent for the request of a client. Scheme, authority and
`Host` are those of the url; but the asterisk as target is put right behind the authority of a
url that ends with it, and then belongs to it. -/
structure ForwardedTo (hyper : HyperUri Uri) (lib : HyperHeaders Headers) (url : Uri)
    (req : ServerRequest Uri Headers) (r : ClientRequest Uri Headers) : Prop where
  target : hyper.fromStr (composedUrl hyper url req.uri) = some r.uri
  scheme : hyper.scheme r.uri = hyper.scheme url
  authority : hyper.path req.uri ≠ "*" → hyper.authority r.uri = hyper.authority url
  host : hyper.path req.uri ≠ "*" → ∃ host, hyper.host url = some host ∧ (OneLine host →
    lib.getRaw r.headers "Host" = some [(host ++ portText (hyper.port url)).toUTF8])
  method : r.method = req.method
  body : r.body = req.body
  via : lib.entriesOf r.headers "Via" =
    knownEntries lib req.headers ++ [(req.version.viaText ++ " weldr").toUTF8]
  headers : ∀ name, foldName name ≠ foldName "Via" → foldName name ≠ foldName "Host" →
    lib.getRaw r.headers name =
      if Withheld lib req.headers name then none else lib.getRaw req.headers name

/-- The url that a request goes to has the scheme of the posted url and, unless the target is
the asterisk, its authority, host and port. -/
theorem composed_keeps (hprints : hyper.Prints) (habsolute : hyper.ReadsAbsolute)
    (hpaths : hyper.TargetPaths) (hhosts : hyper.HostOfAuthority) {url target v : Uri} {t : String}
    (hu : hyper.Absolute url) (ht : hyper.fromStr t = some target)
    (hv : hyper.fromStr (composedUrl hyper url target) = some v) :
    hyper.scheme v = hyper.scheme url ∧ (hyper.path target ≠ "*" →
      hyper.authority v = hyper.authority url ∧ hyper.host v = hyper.host url ∧
        hyper.port v = hyper.port url) := by
  obtain ⟨scheme, authority, rest, hu⟩ := hu
  obtain ⟨star, rest', hstar, hwf, hrest', htext⟩ := composed_absolute hprints hpaths hu ht
  obtain ⟨v', hv', hscheme', hauthority', -⟩ := habsolute hwf hrest'
  obtain ⟨u', hu', hscheme, hauthority, -⟩ := habsolute hu.wellFormed hu.delimited
  obtain rfl := Option.some.inj (hu'.symm.trans hu.parsed)
  obtain rfl := Option.some.inj (hv'.symm.trans (htext ▸ hv))
  refine ⟨hscheme'.trans hscheme.symm, fun hpath => ?_⟩
  obtain rfl : star = "" := hstar.resolve_right fun h => hpath h.2
  rw [String.append_empty] at hv' hauthority'
  exact ⟨hauthority'.trans hauthority.symm, hhosts hu ⟨hu.wellFormed, hrest', hv'⟩⟩

theorem forwardedTo_of_sent [DecidableEq Uri] (hlib : lib.Lawful) (hprints : hyper.Prints)
    (habsolute : hyper.ReadsAbsolute) (hpaths : hyper.TargetPaths)
    (hhosts : hyper.HostOfAuthority) (hdisplay : hyper.DisplaysHost)
    {req : ServerRequest Uri Headers} (hr : lib.Received req.headers) {t : String}
    (ht : hyper.fromStr t = some req.uri) {url : Uri} (hu : hyper.Absolute url)
    (h : backendRequest hyper lib (mapRequest lib req) (serverOf url) = some r) :
    ForwardedTo hyper lib url req r := by
  obtain ⟨-, hmethod, hbody⟩ := ProxyChain.backendRequest_keeps h
  have htarget := backendRequest_uri h
  obtain ⟨hscheme, hkept⟩ := composed_keeps hprints habsolute hpaths hhosts hu ht htarget
  obtain ⟨host, hhost, hset⟩ := backendRequest_host hlib.sets hdisplay rfl h
  obtain ⟨line, hline, -, hentries⟩ :=
    entries_mapRequest hlib.sets hlib.extend hlib.readsVia req hr
  have hvia : lib.getRaw r.headers "Via" = some [line] := by
    rw [← hline]
    exact getRaw_backendRequest hlib.removes hlib.sets h fun hhost => absurd hhost.2 (by decide)
  constructor
  · exact htarget
  · exact hscheme
  · exact fun hpath => (hkept hpath).1
  · intro hpath
    obtain ⟨-, hsame, hport⟩ := hkept hpath
    exact ⟨host, hsame ▸ hhost, hport ▸ hset⟩
  · exact hmethod
  · exact hbody
  · rw [HyperHeaders.entriesOf, HyperHeaders.linesOf, hvia, Option.getD_some,
      List.flatMap_singleton, hentries]
    rfl
  · intro name hname hhost
    refine getRaw_forwarded hlib.removes hlib.sets hlib.extend hlib.readsConnection hr h ?_
    rintro (h | h)
    · exact hname h
    · exact hhost h.2

end Requests

section Workers

variable {Uri : Type} [DecidableEq Uri]

theorem dispatched_cases {w : WorkerSubscriber.State Uri} (hw : PoolFairness.Rotating w.pool) :
    (live (view w.pool) = [] ∧ WorkerSubscriber.dispatched w .request = []) ∨
      ∃ s ∈ live (view w.pool), WorkerSubscriber.dispatched w .request = [s] := by
  rw [live_view]
  cases hactive : PoolFairness.actives w.pool with
  | nil =>
    left
    refine ⟨rfl, List.eq_nil_iff_forall_not_mem.mpr ?_⟩
    intro s hs
    obtain ⟨b, hb, ha, -⟩ := WorkerRouting.dispatched_active hs
    have hin : b ∈ PoolFairness.actives w.pool := List.mem_filter.mpr ⟨hb, ha⟩
    rw [hactive] at hin
    cases hin
  | cons a rest =>
    right
    have ha : a ∈ PoolFairness.actives w.pool := by rw [hactive]; exact List.mem_cons_self
    obtain ⟨q, b, hg⟩ := PoolFairness.get_of_active hw.inside ha
    have hsel : PoolOp.selected w.pool .get = [b] := by simp [PoolOp.selected, hg]
    have hdispatched : WorkerSubscriber.dispatched w .request = [b.server w.pool.heap] := by
      rw [WorkerSubscriber.dispatched, hsel]
      rfl
    obtain ⟨hb, hact, -, -⟩ := PoolFairness.get_ahead hw.wellFormed hw.inside hg
    refine ⟨_, ?_, hdispatched⟩
    rw [← hactive]
    exact List.mem_map_of_mem (List.mem_filter.mpr ⟨hb, hact⟩)

end Workers

section Results

variable {W Uri H Headers : Type} [DecidableEq W] [DecidableEq Uri] [DecidableEq H] [Fintype W]
  {S : Setting Uri H}

theorem live_posted (hrt : S.hyper.RoundTrip) (hW : Fintype.card W < 2 ^ 64)
    (h : BackendHeap Uri) (hw : W → BackendHeap Uri) {es : List (Cluster.Event W)}
    (hv : (clusterSystem W S).Valid (Cluster.initial h hw) es) (i : W) {s : Server Uri}
    (hs : s ∈ live (view
      (((clusterSystem W S).run (Cluster.initial h hw) es).node i).worker.pool)) :
    ∃ u ∈ posts S es, s = serverOf u := by
  have hcore : ((clusterSystem W S).run (Cluster.initial h hw) es).manager.core = _ :=
    (core W S).state_run hv
  rw [live_view] at hs
  obtain ⟨b, hb, rfl⟩ := List.mem_map.mp hs
  have hin := worker_servers hrt hW h hw hv i
    (mem_servers.mpr ⟨b, (List.mem_filter.mp hb).1, rfl⟩)
  rw [hcore] at hin
  obtain ⟨u, hu, he⟩ := (ManagerPool.mem_servers_initial h _ _).mp hin
  rw [posts_run] at hu
  exact ⟨u, hu, he⟩

/-- A client's request at any worker, at any moment of any run of the whole in which all posted
urls are absolute. The worker does not panic. If none of its servers is active, nothing is
sent; else one request is, to an active server that was posted, with the client's method, body
and end-to-end headers, the `Host` of that server and this proxy in its `Via`. -/
theorem requests_forwarded (S : Setting Uri H) (hyper : HyperUri Uri)
    (lib : HyperHeaders Headers) (hS : S.hyper = hyper.toUriText) (hrt : hyper.RoundTrip)
    (hprints : hyper.Prints) (habsolute : hyper.ReadsAbsolute) (hpaths : hyper.TargetPaths)
    (hhosts : hyper.HostOfAuthority) (hdisplay : hyper.DisplaysHost) (hlib : lib.Lawful)
    (hW : Fintype.card W < 2 ^ 64) (h : BackendHeap Uri) (hw : W → BackendHeap Uri)
    (es : List (Cluster.Event W)) (hv : (clusterSystem W S).Valid (Cluster.initial h hw) es)
    (habs : ∀ u ∈ posts S es, hyper.Absolute u) (i : W) (req : ServerRequest Uri Headers)
    (hr : lib.Received req.headers) (t : String) (ht : hyper.fromStr t = some req.uri) :
    let C := (clusterSystem W S).run (Cluster.initial h hw) es
    let w := (C.node i).worker
    Cluster.Enabled S C (.request i) ∧
    ((live (view w.pool) = [] ∧ call hyper lib w req = []) ∨
      ∃ u ∈ posts S es, serverOf u ∈ live (view w.pool) ∧
        ∃ r, call hyper lib w req = [some r] ∧ ForwardedTo hyper lib u req r) := by
  intro C w
  have hrt' : S.hyper.RoundTrip := hS ▸ hrt
  have hrot : PoolFairness.Rotating w.pool := worker_rotating hv i
  have henabled : w.pool.get.isSome := (PoolSelection.get_isSome_iff _).mpr hrot.inside.returns
  refine ⟨⟨(i, .request), rfl, henabled⟩, ?_⟩
  rcases dispatched_cases hrot with ⟨hnone, hsent⟩ | ⟨s, hs, hsent⟩
  · exact Or.inl ⟨hnone, by rw [call, hsent]; rfl⟩
  · obtain ⟨u, hu, rfl⟩ := live_posted hrt' hW h hw hv i hs
    obtain ⟨v, hv', hhost⟩ := composed_parses hprints habsolute hpaths (habs u hu) ht
    obtain ⟨r, hsome, -⟩ := backendRequest_sent lib (mapRequest lib req) (serverOf u) hv' hhost
    refine Or.inr ⟨u, hu, hs, r, by rw [call, hsent, List.map_singleton, hsome], ?_⟩
    exact forwardedTo_of_sent hlib hprints habsolute hpaths hhosts hdisplay hr ht (habs u hu) hsome

end Results

section Instance

open SourceText RouteSafety

def servedRun : List (Cluster.Event Bool) :=
  [.manager (.subscribe (some true)), .manager (.manager (post "http://127.0.0.1:6000") [0]),
    .deliver true]

theorem requests_forwarded_served :
    let S := sourceSetting ["http://127.0.0.1:6000"]
    let C := (clusterSystem Bool S).run (Cluster.initial sourceHeap fun _ => sourceHeap) servedRun
    let w := (C.node true).worker
    Cluster.Enabled S C (.request true) ∧
    ((live (view w.pool) = [] ∧ call sourceText fieldMap w acceptTwice = []) ∨
      ∃ u ∈ posts S servedRun, serverOf u ∈ live (view w.pool) ∧
        ∃ r, call sourceText fieldMap w acceptTwice = [some r] ∧
          ForwardedTo sourceText fieldMap u acceptTwice r) := by
  intro S C w
  have hposts : posts S servedRun = [serverUri] := by decide
  have habs : ∀ u ∈ posts S servedRun, sourceText.Absolute u := by
    intro u hu
    obtain rfl := List.mem_singleton.mp (hposts ▸ hu)
    exact ⟨_, _, _, serverUri_absolute⟩
  exact requests_forwarded S sourceText fieldMap rfl sourceText_roundTrip sourceText_prints
    sourceText_readsAbsolute sourceText_targetPaths sourceText_hostOfAuthority (fun _ _ => rfl)
    fieldMap_lawful (by decide) sourceHeap (fun _ => sourceHeap) servedRun (by decide) habs true
    acceptTwice (show FieldMap.OneLined _ by decide) "/a?b" rfl

example :
    let S := sourceSetting ["http://127.0.0.1:6000"]
    let C := (clusterSystem Bool S).run (Cluster.initial sourceHeap fun _ => sourceHeap) servedRun
    (call sourceText fieldMap (C.node true).worker acceptTwice).map Option.isSome = [true] := by
  decide

end Instance

end ClusterForwarding
