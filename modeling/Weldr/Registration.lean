import Weldr.SubscriberLines
import Weldr.RouteSafety
import Weldr.ReplicaAgreement

/-! What a `POST /servers` does to the manager. A body that is no server is refused; one that is
a server with a malformed url is not, and ends the process. -/
namespace Registration

open BackendPool PoolSteps PoolServerSet PoolView ManagementApi ManagerProcess ManagerPublisher
  Publisher PublisherDelivery

variable {Client Uri H : Type} [DecidableEq Uri] [DecidableEq H]

def registration (body : List UInt8) : ApiRequest :=
  { method := .post, path := "/servers", body := body }

def registered (S : Setting Uri H) (P : Process Client Uri H) (order : List ℕ)
    (body : List UInt8) : Process Client Uri H :=
  ManagerPublisher.next S P (.manager (.api (registration body)) order)

/-- The body is a server whose url parses; that server is in the pool, and its url is all that
is published: what a subscriber is sent is the request of that one publication. -/
def Accepted (S : Setting Uri H) (P : Process Client Uri H) (order : List ℕ)
    (body : List UInt8) : Prop :=
  ∃ server url, S.serde.fromSlice body = .ok server ∧ S.hyper.fromStr server.url = some url ∧
    serverOf url ∈ (registered S P order body).core.pool.servers ∧
    publishedIn S P (.manager (.api (registration body)) order) = [.newServer url] ∧
    ∀ id, sentTo id (registered S P order body).publisher =
      sentTo id P.publisher ++ sentNow S.hyper id P.publisher (.publish (.newServer url) order)

def Refused (S : Setting Uri H) (P : Process Client Uri H) (order : List ℕ) (body : List UInt8)
    (r : Handled Uri) : Prop :=
  r.response.status = .badRequest ∧ registered S P order body = P ∧
    publishedIn S P (.manager (.api (registration body)) order) = []

/-- If the body is a server at all, its url parses. -/
def UrlParses (S : Setting Uri H) (body : List UInt8) : Prop :=
  ∀ server, S.serde.fromSlice body = .ok server → (S.hyper.fromStr server.url).isSome

variable {S : Setting Uri H} {P : Process Client Uri H} {order : List ℕ} {body : List UInt8}

theorem step_registration {r : Handled Uri}
    (hr : addServer S.hyper S.serde P.core.pool body = some r) :
    ManagerProcess.step S P.core (.api (registration body)) =
      some ({ P.core with pool := r.pool }, r.published.toList.map fun p => (p, r.pool)) := by
  rw [ManagerProcess.step, call_post ⟨rfl, rfl⟩, registration, hr]
  rfl

theorem registered_eq (order : List ℕ) {r : Handled Uri}
    (hr : addServer S.hyper S.serde P.core.pool body = some r) :
    registered S P order body =
        { core := { P.core with pool := r.pool }
          publisher := r.published.toList.foldl (fun s p => s.publication S.hyper order p)
            P.publisher } ∧
      publishedIn S P (.manager (.api (registration body)) order) = r.published.toList := by
  have hstep := step_registration (P := P) hr
  constructor
  · simp only [registered, ManagerPublisher.next, ManagerProcess.next, published, hstep,
      Option.map_some, Option.getD_some, List.foldl_map]
  · simp [publishedIn, published, hstep, Function.comp_def]

omit [DecidableEq H] in
theorem addServer_parses (pool : Pool Uri) {server : PoolServer} {url : Uri}
    (hs : S.serde.fromSlice body = .ok server) (hu : S.hyper.fromStr server.url = some url) :
    ∃ r, addServer S.hyper S.serde pool body = some r ∧
      r.pool = (pool.add (serverOf url)).1 ∧ r.published = some (.newServer url) := by
  rw [addServer_eq, hs]
  simp only [hu]
  exact ⟨_, rfl, rfl, rfl⟩

omit [DecidableEq H] in
theorem addServer_malformed {pool : Pool Uri} {server : PoolServer}
    (hs : S.serde.fromSlice body = .ok server) (hu : S.hyper.fromStr server.url = none) :
    addServer S.hyper S.serde pool body = none := by
  rw [addServer_eq, hs]
  simp only [hu]
  rfl

omit [DecidableEq H] in
theorem addServer_noServer (pool : Pool Uri) {e : String}
    (hs : S.serde.fromSlice body = .error e) :
    ∃ r, addServer S.hyper S.serde pool body = some r ∧ r.response.status = .badRequest ∧
      r.pool = pool ∧ r.published = none := by
  rw [addServer_eq, hs]
  exact ⟨_, rfl, rfl, rfl, rfl⟩

theorem accepted_of_published {r : Handled Uri} {server : PoolServer} {url : Uri}
    (ho : order.Perm P.publisher.subscribers.keys)
    (hs : S.serde.fromSlice body = .ok server) (hu : S.hyper.fromStr server.url = some url)
    (hr : addServer S.hyper S.serde P.core.pool body = some r)
    (hpool : r.pool = (P.core.pool.add (serverOf url)).1)
    (hpublished : r.published = some (.newServer url)) : Accepted S P order body := by
  obtain ⟨hnext, hlog⟩ := registered_eq order hr
  refine ⟨server, url, hs, hu, ?_, ?_, ?_⟩
  · rw [hnext, hpool, mem_servers]
    obtain ⟨b, hb, hread⟩ := add_fresh P.core.pool (serverOf url)
    exact ⟨b, hb, by rw [Backend.server, hread]; rfl⟩
  · rw [hlog, hpublished]
    rfl
  · intro id
    rw [hnext, hpublished]
    exact sentTo_next S.hyper id (e := .publish (.newServer url) order) ho

/-- A registration is accepted or refused, and handled at all, if and only if the body is no
server or its url parses. -/
theorem registration_lawful_iff (S : Setting Uri H) (P : Process Client Uri H) {order : List ℕ}
    (ho : order.Perm P.publisher.subscribers.keys) (body : List UInt8) :
    (∃ r, addServer S.hyper S.serde P.core.pool body = some r ∧
      (Accepted S P order body ∨ Refused S P order body r)) ↔ UrlParses S body := by
  cases hs : S.serde.fromSlice body with
  | error e =>
    have hparses : UrlParses S body := by
      intro server hserver
      cases hs.symm.trans hserver
    obtain ⟨r, hr, hstatus, hpool, hpublished⟩ := addServer_noServer P.core.pool hs
    obtain ⟨hnext, hlog⟩ := registered_eq order hr
    rw [hpool, hpublished] at hnext
    rw [hpublished] at hlog
    exact iff_of_true ⟨r, hr, Or.inr ⟨hstatus, hnext, hlog⟩⟩ hparses
  | ok server =>
    cases hu : S.hyper.fromStr server.url with
    | none =>
      refine iff_of_false ?_ ?_
      · rintro ⟨r, hr, -⟩
        cases (addServer_malformed hs hu).symm.trans hr
      · intro hparses
        have hsome := hparses server hs
        rw [hu] at hsome
        cases hsome
    | some url =>
      have hparses : UrlParses S body := by
        intro server' hserver
        obtain rfl := Except.ok.inj (hs.symm.trans hserver)
        rw [hu]
        rfl
      obtain ⟨r, hr, hpool, hpublished⟩ := addServer_parses P.core.pool hs hu
      exact iff_of_true
        ⟨r, hr, Or.inl (accepted_of_published ho hs hu hr hpool hpublished)⟩ hparses

section Instance

open ComposedUrls RouteSafety ReplicaAgreement SourceText

def oneSubscriber : Process Unit SourceUri (InnerBackend SourceUri) :=
  ManagerPublisher.next (sourceSetting []) (ManagerPublisher.initial sourceHeap)
    (.subscribe (some ()))

theorem registration_lawful_absolute :
    let S := sourceSetting ["http://127.0.0.1:6000"]
    let body := bodyOf "http://127.0.0.1:6000"
    ∃ r, addServer S.hyper S.serde oneSubscriber.core.pool body = some r ∧
      (Accepted S oneSubscriber [0] body ∨ Refused S oneSubscriber [0] body r) := by
  intro S body
  refine (registration_lawful_iff S oneSubscriber (by decide) body).mpr ?_
  intro server hserver
  have hbody : S.serde.fromSlice body = .ok { url := "http://127.0.0.1:6000", links := none } := rfl
  obtain rfl := Except.ok.inj (hbody.symm.trans hserver)
  rfl

/-- The body is a server, but its url lacks the scheme. -/
theorem malformed_url_panics :
    let S := sourceSetting ["localhost/srv"]
    S.serde.fromSlice (bodyOf "localhost/srv") = .ok { url := "localhost/srv", links := none } ∧
      addServer S.hyper S.serde oneSubscriber.core.pool (bodyOf "localhost/srv") = none :=
  ⟨rfl, rfl⟩

end Instance

end Registration

/-! What the management API answers when it lists its servers: the urls that were posted, in
the order of their posts. -/
namespace ServerListing

open BackendPool TransitionSystems SubscriberProtocol PoolView ManagementApi ManagerProcess
  ManagerRecords ReplicaAgreement

section Views

variable {Uri : Type} [DecidableEq Uri]

/-- Publications that add new urls add their servers behind those that are there, and marks
move none. -/
theorem servers_replay {ps : List (Publication Uri)} {v : View Uri} (hps : (added ps).Nodup)
    (hnew : ∀ u ∈ added ps, serverOf u ∉ v.map Prod.fst) :
    (replay applied v ps).map Prod.fst = v.map Prod.fst ++ (added ps).map serverOf := by
  induction ps generalizing v with
  | nil => exact (List.append_nil _).symm
  | cons p ps ih =>
    cases p with
    | newServer u =>
      have hcons : added (Publication.newServer u :: ps) = u :: added ps := rfl
      rw [hcons] at hps hnew ⊢
      obtain ⟨hu, hps⟩ := List.nodup_cons.mp hps
      have hstep : (applied v (.newServer u)).map Prod.fst = v.map Prod.fst ++ [serverOf u] := by
        rw [applied, if_neg (hnew u List.mem_cons_self), List.map_append]
        rfl
      have hrest := ih (v := applied v (.newServer u)) hps (by
        intro w hw hin
        rw [hstep, List.mem_append, List.mem_singleton] at hin
        rcases hin with hin | he
        · exact hnew w (List.mem_cons_of_mem _ hw) hin
        · obtain rfl : w = u := congrArg Server.url he
          exact hu hw)
      refine hrest.trans ?_
      rw [hstep, List.append_assoc]
      rfl
    | serverStateDown u | serverStateActive u =>
      have hkeep : ∀ st, (replay applied (setState (serverOf u) st v) ps).map Prod.fst =
          v.map Prod.fst ++ (added ps).map serverOf := by
        intro st
        have hrest := ih (v := setState (serverOf u) st v) hps fun w hw => by
          rw [setState_servers]
          exact hnew w hw
        rwa [setState_servers] at hrest
      exact hkeep _

end Views

section Answers

variable {Uri H : Type}

def listing (S : Setting Uri H) (urls : List Uri) : Response :=
  let servers := urls.map fun url =>
    { url := S.hyper.asRef url
      links := some [{ rel := "delete", href := "/servers/" ++ S.hyper.display url
                       method := some "DELETE" }] }
  let body := S.serde.poolServersToStringPretty
    { servers := servers
      links := some [{ rel := "add", href := "/servers", method := some "POST" }] }
  { contentLength := some body.utf8ByteSize, json := true, body := body }

theorem allServersReponse_eq (S : Setting Uri H) {p : Pool Uri} {urls : List Uri}
    (hp : p.servers = urls.map serverOf) :
    allServersReponse S.hyper S.serde p = listing S urls := by
  have hurls : p.all.map (fun b => (b.server p.heap).url) = urls := by
    have hmap := congrArg (List.map Server.url) hp
    rw [Pool.servers, List.map_map, List.map_map] at hmap
    exact hmap.trans (List.map_id urls)
  have hservers : (p.all.map fun backend =>
      let server := backend.server p.heap
      let deleteHref := "/servers/" ++ S.hyper.display server.url
      ({ url := S.hyper.asRef server.url
         links := some [{ rel := "delete", href := deleteHref, method := some "DELETE" }] } :
        PoolServer)) =
      urls.map fun url =>
        { url := S.hyper.asRef url
          links := some [{ rel := "delete", href := "/servers/" ++ S.hyper.display url
                           method := some "DELETE" }] } := by
    rw [← hurls, List.map_map]
    rfl
  simp only [allServersReponse, listing]
  rw [hservers]

variable [DecidableEq Uri] [DecidableEq H]

omit [DecidableEq H] in
theorem call_posted {S : Setting Uri H} (pool : Pool Uri) {req : ApiRequest} {u : Uri}
    (hu : postedBy S (.api req) = some u) :
    ∃ r, call S.hyper S.serde pool req = some r ∧
      r.response = allServersReponse S.hyper S.serde r.pool := by
  simp only [postedBy, posted] at hu
  split at hu
  · next hp =>
    rw [call_post hp, addServer_eq]
    split at hu
    · rw [hu]
      exact ⟨_, rfl, rfl⟩
    · cases hu
  · cases hu

theorem servers_run (S : Setting Uri H) (h : BackendHeap Uri) {es : List Event}
    (honce : (es.filterMap (postedBy S)).Nodup) :
    ((coreSystem S).run (initial h) es).pool.servers =
      (es.filterMap (postedBy S)).map serverOf := by
  have hfresh := freshPost_run (S := S) (initial_managed h)
    (show view _ = replay applied [] [] from rfl) honce (by simp [added])
  obtain ⟨-, hrecords⟩ := run_records (initial_managed h) hfresh
  have hview := hrecords.replay_eq
  rw [(entries_publications (S := S) (initial h) es).2] at hview
  have hadded := added_publications (S := S) (initial h) es
  rw [← view_servers, hview, servers_replay (hadded ▸ honce) (by simp [view, initial,
    Pool.default]), hadded]
  rfl

def answer (S : Setting Uri H) (c : Core Uri H) (req : ApiRequest) : Option Response :=
  (call S.hyper S.serde c.pool req).map Handled.response

/-- In every run that posts no url twice, a request for the servers is answered with the urls
that were posted, in the order of their posts, and so is the post of another url, with that
url as the last one. No timer and no check moves or loses one, be it down or not. -/
theorem answers_list_posted (S : Setting Uri H) (h : BackendHeap Uri) (es : List Event)
    (req : ApiRequest) (hpath : req.path = "/servers")
    (honce : ((es ++ [Event.api req]).filterMap (postedBy S)).Nodup) :
    let c := (coreSystem S).run (initial h) es
    (req.method = .get → answer S c req = some (listing S (es.filterMap (postedBy S)))) ∧
    ∀ u, postedBy S (.api req) = some u →
      answer S c req = some (listing S (es.filterMap (postedBy S) ++ [u])) := by
  intro c
  have hservers := servers_run S h honce
  rw [System.run_append, List.filterMap_append] at hservers
  rw [List.filterMap_append] at honce
  have hbefore := servers_run S h (List.nodup_append.mp honce).1
  constructor
  · intro hget
    obtain ⟨method, path, body⟩ := req
    simp only at hget hpath
    subst hget hpath
    change some (allServersReponse S.hyper S.serde c.pool) = _
    rw [allServersReponse_eq S hbefore]
  · intro u hu
    obtain ⟨r, hr, hresponse⟩ := call_posted c.pool hu
    have hnext : ((coreSystem S).run c [.api req]).pool = r.pool := by
      change (ManagerProcess.next S c (.api req)).pool = r.pool
      simp only [ManagerProcess.next, step, hr, Option.map_some, Option.getD_some]
    have hposts : [Event.api req].filterMap (postedBy S) = [u] := by simp [hu]
    rw [hnext, hposts] at hservers
    rw [answer, hr, Option.map_some, hresponse, allServersReponse_eq S hservers]

theorem answers_list_posted_second :
    let S := knownUrls ["http://a", "http://b"]
    let c := (coreSystem S).run (initial blankHeap) failingRun
    let req : ApiRequest := { method := .post, path := "/servers", body := bodyOf "http://b" }
    (req.method = .get → answer S c req = some (listing S (failingRun.filterMap (postedBy S)))) ∧
    ∀ u, postedBy S (.api req) = some u →
      answer S c req = some (listing S (failingRun.filterMap (postedBy S) ++ [u])) :=
  answers_list_posted (knownUrls ["http://a", "http://b"]) blankHeap failingRun _ rfl (by decide)

end Answers

end ServerListing
