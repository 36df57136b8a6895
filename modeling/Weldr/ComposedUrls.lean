import Weldr.Proxy
import Weldr.RequestTargets

/-! The url that the proxy composes of a server's url and a request target. It is as good as
the url of the server: an absolute one stays absolute, any other gets no host. Of a target in
origin form all is kept, but the question mark is always written, so that a target without a
query gets an empty one. -/
namespace ComposedUrls

open RequestTargets HttpHeaders BackendPool WorkerSubscriber Proxy

section Closure

variable {Uri Headers : Type} {hyper : HyperUri Uri} {lib : HyperHeaders Headers}

def composedUrl (hyper : HyperUri Uri) (url target : Uri) : String :=
  hyper.display url ++ hyper.path target ++ "?" ++ (hyper.query target).getD ""

theorem backendRequest_sent (lib : HyperHeaders Headers) (clientReq : ClientRequest Uri Headers)
    (server : Server Uri) {v : Uri}
    (hv : hyper.fromStr (composedUrl hyper server.url clientReq.uri) = some v)
    (hhost : (hyper.host v).isSome) :
    ∃ r, backendRequest hyper lib clientReq server = some r ∧ r.uri = v := by
  obtain ⟨host, hh⟩ := Option.isSome_iff_exists.mp hhost
  rw [composedUrl] at hv
  cases hmap : server.mapHost with
  | true => simp [backendRequest, hv, hmap, hh]
  | false => simp [backendRequest, hv, hmap]

theorem backendRequest_panics {clientReq : ClientRequest Uri Headers} {server : Server Uri}
    (hmap : server.mapHost = true)
    (hnone : ∀ v, hyper.fromStr (composedUrl hyper server.url clientReq.uri) = some v →
      hyper.host v = none) : backendRequest hyper lib clientReq server = none := by
  cases hv : hyper.fromStr (composedUrl hyper server.url clientReq.uri) with
  | none =>
    rw [composedUrl] at hv
    simp [backendRequest, hv]
  | some v =>
    have hhost := hnone v hv
    rw [composedUrl] at hv
    simp [backendRequest, hv, hmap, hhost]

theorem call_of_dispatched [DecidableEq Uri] {w : State Uri} {server : Server Uri}
    (req : ServerRequest Uri Headers) (hs : server ∈ dispatched w .request) :
    call hyper lib w req = [backendRequest hyper lib (mapRequest lib req) server] := by
  obtain ⟨b, hb, rfl⟩ := List.mem_map.mp hs
  have hone : PoolOp.selected w.pool .get = [b] := by
    rw [PoolOp.selected, Option.mem_toList] at hb
    rw [PoolOp.selected, hb]
    rfl
  rw [call, dispatched, hone]
  rfl

end Closure

section Targets

variable {Uri : Type} {hyper : HyperUri Uri} {u target : Uri}

theorem delimited_of_slash {a : String} (ha : StartsWithSlash a) : Delimited a :=
  fun _ hc => Or.inl (Option.some.inj (hc.symm.trans ha))

theorem delimited_empty : Delimited "" := by
  intro c hc
  cases hc

theorem delimited_query (q : String) : Delimited ("?" ++ q) := by
  intro c hc
  rw [String.toList_append] at hc
  exact Or.inr (Or.inl (Option.some.inj hc).symm)

theorem delimited_append {a b : String} (ha : Delimited a) (hb : a = "" → Delimited b) :
    Delimited (a ++ b) := by
  intro c hc
  rw [String.toList_append, List.head?_append] at hc
  cases hh : a.toList.head? with
  | none =>
    have hempty : a = "" := String.toList_inj.mp (List.head?_eq_none_iff.mp hh)
    exact hb hempty c (by simpa [hh] using hc)
  | some d => exact ha c (by simpa [hh] using hc)

theorem target_path (hpaths : hyper.TargetPaths) {t : String}
    (ht : hyper.fromStr t = some target) :
    Delimited (hyper.path target) ∨ hyper.path target = "*" := by
  rcases hpaths ht with hslash | hempty | hstar
  · exact Or.inl (delimited_of_slash hslash)
  · exact Or.inl (hempty ▸ delimited_empty)
  · exact Or.inr hstar

/-- What stands behind the authority of an absolute url is pushed back by the target, unless
that is the asterisk and nothing stands there: then the authority grows by it. -/
theorem composed_behind {rest path : String} (q : String) (hrest : Delimited rest)
    (hpath : Delimited path ∨ path = "*") :
    ∃ star rest', (star = "" ∨ star = "*" ∧ path = "*") ∧ Delimited rest' ∧
      rest ++ (path ++ ("?" ++ q)) = star ++ rest' := by
  have hquery := delimited_query q
  by_cases hstar : rest = "" ∧ path = "*"
  · obtain ⟨rfl, rfl⟩ := hstar
    exact ⟨"*", "?" ++ q, Or.inr ⟨rfl, rfl⟩, hquery, String.empty_append⟩
  · refine ⟨"", _, Or.inl rfl, delimited_append hrest fun hempty => ?_, String.empty_append.symm⟩
    have hplain : Delimited path := hpath.resolve_right fun hp => hstar ⟨hempty, hp⟩
    exact delimited_append hplain fun _ => hquery

theorem wellFormed_star {scheme authority star path : String} (h : WellFormed scheme authority)
    (hstar : star = "" ∨ star = "*" ∧ path = "*") : WellFormed scheme (authority ++ star) := by
  refine ⟨h.scheme_ne, h.scheme_chars, ?_, ?_⟩
  · intro hempty
    have hlen := congrArg String.length hempty
    rw [String.length_append, String.length_empty, Nat.add_eq_zero_iff] at hlen
    exact h.authority_ne (String.length_eq_zero_iff.mp hlen.1)
  · intro c hc
    rw [String.toList_append, List.mem_append] at hc
    rcases hc with hc | hc
    · exact h.authority_chars c hc
    · rcases hstar with rfl | ⟨rfl, -⟩
      · cases hc
      · obtain rfl := List.mem_singleton.mp hc
        decide

/-- What is composed of an absolute url is absolute, with the scheme and authority of the url
unless the target is the asterisk. -/
theorem composed_absolute (hprints : hyper.Prints) (hpaths : hyper.TargetPaths)
    {scheme authority rest t : String} (hu : hyper.AbsoluteForm scheme authority rest u)
    (ht : hyper.fromStr t = some target) :
    ∃ star rest', (star = "" ∨ star = "*" ∧ hyper.path target = "*") ∧
      WellFormed scheme (authority ++ star) ∧ Delimited rest' ∧
      composedUrl hyper u target = scheme ++ "://" ++ (authority ++ star) ++ rest' := by
  obtain ⟨star, rest', hstar, hrest', hbehind⟩ :=
    composed_behind ((hyper.query target).getD "") hu.delimited (target_path hpaths ht)
  refine ⟨star, rest', hstar, wellFormed_star hu.wellFormed hstar, hrest', ?_⟩
  rw [composedUrl, hprints hu.parsed]
  simp only [String.append_assoc] at hbehind ⊢
  rw [hbehind]

theorem composed_parses (hprints : hyper.Prints) (habsolute : hyper.ReadsAbsolute)
    (hpaths : hyper.TargetPaths) {t : String} (hu : hyper.Absolute u)
    (ht : hyper.fromStr t = some target) :
    ∃ v, hyper.fromStr (composedUrl hyper u target) = some v ∧ (hyper.host v).isSome := by
  obtain ⟨scheme, authority, rest, hu⟩ := hu
  obtain ⟨star, rest', -, hwf, hrest', htext⟩ := composed_absolute hprints hpaths hu ht
  obtain ⟨v, hv, -, -, hhost⟩ := habsolute hwf hrest'
  exact ⟨v, htext ▸ hv, hhost⟩

/-- The root composed with a url that has no scheme has no host, if it parses at all. -/
theorem composed_root (hprints : hyper.Prints) (hrelative : hyper.ReadsRelative)
    (horigin : hyper.SplitsOrigin) {s : String} (hs : hyper.fromStr s = some u)
    (hscheme : hyper.scheme u = none) (ht : hyper.fromStr "/" = some target) {v : Uri}
    (hv : hyper.fromStr (composedUrl hyper u target) = some v) : hyper.host v = none := by
  have hroot : hyper.path target = "/" ∧ hyper.query target = none :=
    horigin rfl ⟨by decide, by decide⟩ (by simp) ht
  have htext : composedUrl hyper u target = s ++ "/?" := by
    rw [composedUrl, hprints hs, hroot.1, hroot.2, String.append_assoc, String.append_assoc]
    rfl
  rw [htext] at hv
  by_cases hslash : StartsWithSlash (s ++ "/?")
  · exact hrelative.origin hslash hv
  · have hno : '/' ∉ s.toList := by
      refine (hrelative.schemeless hs hscheme).resolve_left fun hstart => hslash ?_
      obtain ⟨l, hl⟩ := List.head?_eq_some_iff.mp hstart
      simp [StartsWithSlash, String.toList_append, hl]
    -- the text has a single slash, and `://` has two
    have hone : ¬ "://".toList <:+: (s ++ "/?").toList := by
      intro hinfix
      have hcount := hinfix.sublist.count_le '/'
      rw [String.toList_append, List.count_append, List.count_eq_zero.mpr hno] at hcount
      exact absurd hcount (by decide)
    rw [hrelative.rejects hslash (by simp [String.toList_append]) hone] at hv
    cases hv

end Targets

section Instance

open SourceText

def serverUri : SourceUri := (sourceText.fromStr "http://127.0.0.1:6000").get rfl
def rootUri : SourceUri := (sourceText.fromStr "/").get rfl

theorem serverUri_absolute : sourceText.AbsoluteForm "http" "127.0.0.1:6000" "" serverUri where
  wellFormed := ⟨by decide, by simp, by decide, by simp⟩
  delimited := delimited_empty
  parsed := rfl

def sourceHeap : BackendHeap SourceUri :=
  { cell := fun _ => InnerBackend.new { url := rootUri, mapHost := false }, next := 0 }

def getOf (target : SourceUri) : ServerRequest SourceUri FieldMap :=
  { method := .get, uri := target, version := .http11, headers := fieldMap.new, body := [] }

end Instance

end ComposedUrls

namespace TargetRewriting

open RequestTargets HttpHeaders BackendPool WorkerSubscriber Proxy ComposedUrls

variable {Uri Headers : Type} {hyper : HyperUri Uri} {lib : HyperHeaders Headers}

structure OriginTarget (hyper : HyperUri Uri) (path : String) (query : Option String)
    (target : Uri) : Prop where
  parsed : hyper.fromStr (path ++ (query.elim "" fun q => "?" ++ q)) = some target
  rooted : StartsWithSlash path
  path_plain : Plain path
  query_plain : ∀ q ∈ query, '#' ∉ q.toList

/-- `uri` is the target, moved to the server. -/
def TargetKept (hyper : HyperUri Uri) (url target uri : Uri) : Prop :=
  hyper.scheme uri = hyper.scheme url ∧ hyper.authority uri = hyper.authority url ∧
    hyper.path uri = hyper.path target ∧ hyper.query uri = hyper.query target

/-- All of the target is kept, but an absent query becomes an empty one. -/
theorem composed_bare (hprints : hyper.Prints) (habsolute : hyper.ReadsAbsolute)
    (horigin : hyper.SplitsOrigin) (hsplits : hyper.SplitsAbsolute)
    {scheme authority path : String} {query : Option String} {u target : Uri}
    (hu : hyper.AbsoluteForm scheme authority "" u) (ht : OriginTarget hyper path query target) :
    ∃ v, hyper.fromStr (composedUrl hyper u target) = some v ∧ (hyper.host v).isSome ∧
      hyper.scheme v = hyper.scheme u ∧ hyper.authority v = hyper.authority u ∧
      hyper.path v = hyper.path target ∧
      hyper.query v = some ((hyper.query target).getD "") := by
  obtain ⟨hp, hq⟩ := horigin ht.rooted ht.path_plain ht.query_plain ht.parsed
  obtain ⟨u', hu', hs, ha, -⟩ := habsolute hu.wellFormed hu.delimited
  obtain rfl := Option.some.inj (hu'.symm.trans hu.parsed)
  have hrest : Delimited (path ++ ("?" ++ query.getD "")) :=
    delimited_append (delimited_of_slash ht.rooted) fun _ => delimited_query _
  obtain ⟨v, hv, hs', ha', hhost⟩ := habsolute hu.wellFormed hrest
  have htext : composedUrl hyper u' target =
      scheme ++ "://" ++ authority ++ (path ++ ("?" ++ query.getD "")) := by
    rw [composedUrl, hprints hu.parsed, hp, hq]
    simp only [String.append_assoc, String.empty_append]
  have hfragment : '#' ∉ (query.getD "").toList := by
    cases query with
    | none => simp
    | some q => exact ht.query_plain q rfl
  have hv' : hyper.fromStr
      (scheme ++ "://" ++ authority ++ path ++ "?" ++ query.getD "") = some v := by
    rw [← hv]
    simp only [String.append_assoc]
  obtain ⟨hpath, hquery⟩ := hsplits hu.wellFormed ht.rooted ht.path_plain hfragment hv'
  refine ⟨v, htext ▸ hv, hhost, hs'.trans hs.symm, ha'.trans ha.symm, hpath.trans hp.symm, ?_⟩
  rw [hquery, hq]

/-- The request that goes to the backend keeps its target exactly if that has a query. -/
theorem target_kept_iff [DecidableEq Uri] (hprints : hyper.Prints)
    (habsolute : hyper.ReadsAbsolute) (horigin : hyper.SplitsOrigin)
    (hsplits : hyper.SplitsAbsolute) {scheme authority path : String} {query : Option String}
    {w : State Uri} {server : Server Uri} {req : ServerRequest Uri Headers}
    (hs : server ∈ dispatched w .request)
    (hu : hyper.AbsoluteForm scheme authority "" server.url)
    (ht : OriginTarget hyper path query req.uri) :
    ∃ r, call hyper lib w req = [some r] ∧
      (TargetKept hyper server.url req.uri r.uri ↔ (hyper.query req.uri).isSome) := by
  obtain ⟨v, hv, hhost, hscheme, hauthority, hpath, hquery⟩ :=
    composed_bare hprints habsolute horigin hsplits hu ht
  obtain ⟨r, hr, rfl⟩ := backendRequest_sent lib (mapRequest lib req) server hv hhost
  refine ⟨r, by rw [call_of_dispatched req hs, hr], ?_⟩
  rw [TargetKept, hquery]
  cases hyper.query req.uri with
  | none => simp
  | some q => simp [hscheme, hauthority, hpath]

section Instance

open SourceText

def oneServer : State SourceUri :=
  (workerSystem sourceText.toUriText).run (initial sourceHeap)
    [.message (.addServer "http://127.0.0.1:6000")]

def fooUri : SourceUri := (sourceText.fromStr "/foo").get rfl
def fooQueryUri : SourceUri := (sourceText.fromStr "/foo?a=b").get rfl

theorem target_kept_query :
    ∃ r, call sourceText fieldMap oneServer (getOf fooQueryUri) = [some r] ∧
      (TargetKept sourceText serverUri fooQueryUri r.uri ↔
        (sourceText.query fooQueryUri).isSome) := by
  have hs : ({ url := serverUri, mapHost := true } : Server SourceUri) ∈
      dispatched oneServer .request := by decide
  have ht : OriginTarget sourceText "/foo" (some "a=b") fooQueryUri :=
    { parsed := rfl
      rooted := rfl
      path_plain := ⟨by decide, by decide⟩
      query_plain := by decide }
  exact target_kept_iff sourceText_prints sourceText_readsAbsolute sourceText_splitsOrigin
    sourceText_splitsAbsolute hs serverUri_absolute ht

theorem query_written :
    sourceText.query fooUri = none ∧
      (call sourceText fieldMap oneServer (getOf fooUri)).map
        (fun r => r.map fun r => sourceText.query r.uri) = [some (some "")] := by
  decide

end Instance

end TargetRewriting
