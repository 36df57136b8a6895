import Weldr.HeaderFiltering

/-! A request that goes through one proxy after another. Each of them reads what the one before
it has sent; in between, only what is said of the connection may be replaced. -/
namespace ProxyChain

open HttpHeaders RequestTargets BackendPool Proxy HeaderFiltering ViaChain

variable {Uri Headers : Type} {hyper : HyperUri Uri} {lib : HyperHeaders Headers}

/-- A request as the next server receives it. Its target is that server's to read, and its
`Connection` header names no header that goes further than the connection. -/
structure Arrives (lib : HyperHeaders Headers) (r : ClientRequest Uri Headers)
    (req : ServerRequest Uri Headers) : Prop where
  version : req.version = r.version
  method : req.method = r.method
  body : req.body = r.body
  received : lib.Received req.headers
  headers : ∀ name, ¬ Among hopByHop name → lib.getRaw req.headers name = lib.getRaw r.headers name
  options : ∀ name, lib.NamedByConnection req.headers name → Among ("Close" :: hopByHop) name

def Passes (hyper : HyperUri Uri) (lib : HyperHeaders Headers)
    (req req' : ServerRequest Uri Headers) : Prop :=
  ∃ server r, backendRequest hyper lib (mapRequest lib req) server = some r ∧ Arrives lib r req'

inductive Through (hyper : HyperUri Uri) (lib : HyperHeaders Headers)
    (first : ServerRequest Uri Headers) : ℕ → ServerRequest Uri Headers → Prop where
  | received : lib.Received first.headers → Through hyper lib first 0 first
  | passed {n : ℕ} {req req' : ServerRequest Uri Headers} : Through hyper lib first n req →
      Passes hyper lib req req' → Through hyper lib first (n + 1) req'

theorem backendRequest_keeps {clientReq r : ClientRequest Uri Headers} {server : Server Uri}
    (h : backendRequest hyper lib clientReq server = some r) :
    r.version = clientReq.version ∧ r.method = clientReq.method ∧ r.body = clientReq.body := by
  obtain ⟨uri, -, hr⟩ := Option.bind_eq_some_iff.mp h
  by_cases hmap : server.mapHost = true
  · rw [if_pos hmap] at hr
    obtain ⟨host, -, hr⟩ := Option.bind_eq_some_iff.mp hr
    obtain rfl := Option.some.inj hr
    exact ⟨rfl, rfl, rfl⟩
  · rw [if_neg hmap] at hr
    obtain rfl := Option.some.inj hr
    exact ⟨rfl, rfl, rfl⟩

theorem received_through {first last : ServerRequest Uri Headers} {n : ℕ}
    (h : Through hyper lib first n last) : lib.Received last.headers := by
  cases h with
  | received hr => exact hr
  | passed _ hpass =>
    obtain ⟨server, r, -, ha⟩ := hpass
    exact ha.received

section Lawful

variable (hlib : lib.Lawful)
include hlib

/-- The `Via` behind one proxy: one line of text, with the chain that this proxy made of it. -/
theorem via_passes {req req' : ServerRequest Uri Headers} (hr : lib.Received req.headers)
    (h : Passes hyper lib req req') :
    req'.version = .http11 ∧ knownEntries lib req'.headers = lib.entriesOf req'.headers "Via" ∧
      lib.entriesOf req'.headers "Via" =
        knownEntries lib req.headers ++ [(viaEntry req.version).toUTF8] := by
  obtain ⟨server, r, hsent, ha⟩ := h
  obtain ⟨line, hline, htext, hentries⟩ :=
    entries_mapRequest hlib.sets hlib.extend hlib.readsVia req hr
  have hget : lib.getRaw req'.headers "Via" = some [line] := by
    rw [ha.headers "Via" (by decide), ← hline]
    exact getRaw_backendRequest hlib.removes hlib.sets hsent fun hhost => absurd hhost.2 (by decide)
  have hlines : lib.linesOf req'.headers "Via" = [line] := by
    rw [HyperHeaders.linesOf, hget]
    rfl
  refine ⟨ha.version.trans (backendRequest_keeps hsent).1, ?_, ?_⟩
  · exact if_pos ⟨by rw [hlines]; rfl, by rw [HyperHeaders.Readable, hlines]; simpa using htext⟩
  · rw [HyperHeaders.entriesOf, hlines, List.flatMap_singleton, hentries]

theorem via_through {first last : ServerRequest Uri Headers} {n : ℕ}
    (h : Through hyper lib first (n + 1) last) :
    last.version = .http11 ∧ knownEntries lib last.headers = lib.entriesOf last.headers "Via" ∧
      lib.entriesOf last.headers "Via" =
        knownEntries lib first.headers ++
          (viaEntry first.version).toUTF8 :: List.replicate n (viaEntry .http11).toUTF8 := by
  induction n generalizing last with
  | zero =>
    cases h with
    | passed h hpass =>
      cases h with
      | received hr => exact via_passes hlib hr hpass
  | succ n ih =>
    cases h with
    | passed h hpass =>
      obtain ⟨hversion, hknown, hentries⟩ := ih h
      obtain ⟨hversion', hknown', hentries'⟩ :=
        via_passes hlib (received_through h) hpass
      refine ⟨hversion', hknown', ?_⟩
      rw [hentries', hknown, hentries, hversion, List.replicate_succ', List.append_assoc,
        List.cons_append]

theorem getRaw_passes {req req' : ServerRequest Uri Headers} (hr : lib.Received req.headers)
    (h : Passes hyper lib req req') {name : String} (hend : ¬ Among ("Close" :: hopByHop) name)
    (hvia : foldName name ≠ foldName "Via") (hhost : foldName name ≠ foldName "Host")
    (hnamed : ¬ lib.NamedByConnection req.headers name) :
    lib.getRaw req'.headers name = lib.getRaw req.headers name ∧
      ¬ lib.NamedByConnection req'.headers name := by
  obtain ⟨server, r, hsent, ha⟩ := h
  have hhop : ¬ Among hopByHop name := fun hin => hend (hin.subset (by decide))
  have hkept : ¬ Withheld lib req.headers name := by
    rintro (⟨-, hin⟩ | hin)
    · exact hnamed hin
    · exact hhop (hin.subset (by decide))
  have hown : ¬ SetByProxy server name := by
    rintro (h | h)
    · exact hvia h
    · exact hhost h.2
  refine ⟨?_, fun hin => hend (ha.options name hin)⟩
  rw [ha.headers name hhop, getRaw_forwarded hlib.removes hlib.sets hlib.extend
    hlib.readsConnection hr hsent hown, if_neg hkept]

theorem getRaw_through {first last : ServerRequest Uri Headers} {n : ℕ}
    (h : Through hyper lib first n last) {name : String}
    (hend : ¬ Among ("Close" :: hopByHop) name) (hvia : foldName name ≠ foldName "Via")
    (hhost : foldName name ≠ foldName "Host")
    (hnamed : ¬ lib.NamedByConnection first.headers name) :
    lib.getRaw last.headers name = lib.getRaw first.headers name ∧
      ¬ lib.NamedByConnection last.headers name := by
  induction h with
  | received _ => exact ⟨rfl, hnamed⟩
  | passed h hpass ih =>
    obtain ⟨hget, hnamed'⟩ := getRaw_passes hlib (received_through h) hpass hend hvia hhost ih.2
    exact ⟨hget.trans ih.1, hnamed'⟩

end Lawful

theorem kept_through {first last : ServerRequest Uri Headers} {n : ℕ}
    (h : Through hyper lib first n last) :
    last.method = first.method ∧ last.body = first.body := by
  induction h with
  | received _ => exact ⟨rfl, rfl⟩
  | passed h hpass ih =>
    obtain ⟨server, r, hr, ha⟩ := hpass
    obtain ⟨-, hmethod, hbody⟩ := backendRequest_keeps hr
    exact ⟨(ha.method.trans hmethod).trans ih.1, (ha.body.trans hbody).trans ih.2⟩

/-- A request behind any number of proxies, whatever servers they select. Its `Via` has one
entry for each of them, in order, behind those that it came with, which only the first proxy
can lose, and method, body and end-to-end headers are as they were sent. -/
theorem through_proxies (hlib : lib.Lawful) (first last : ServerRequest Uri Headers) (n : ℕ)
    (h : Through hyper lib first (n + 1) last) :
    lib.entriesOf last.headers "Via" =
      (if (lib.linesOf first.headers "Via").length ≤ 1 ∧ lib.Readable first.headers "Via" then
        lib.entriesOf first.headers "Via" else []) ++
        (first.version.viaText ++ " weldr").toUTF8 :: List.replicate n "1.1 weldr".toUTF8 ∧
    last.method = first.method ∧ last.body = first.body ∧
    ∀ name, ¬ Among ("Close" :: hopByHop) name → foldName name ≠ foldName "Via" →
      foldName name ≠ foldName "Host" → ¬ lib.NamedByConnection first.headers name →
        lib.getRaw last.headers name = lib.getRaw first.headers name := by
  obtain ⟨hmethod, hbody⟩ := kept_through h
  refine ⟨(via_through hlib h).2.2, hmethod, hbody, ?_⟩
  intro name hend hvia hhost hnamed
  exact (getRaw_through hlib h hend hvia hhost hnamed).1

section Instance

open SourceText

def verbatim (r : ClientRequest Uri Headers) : ServerRequest Uri Headers :=
  { method := r.method, uri := r.uri, version := r.version, headers := r.headers, body := r.body }

theorem passes_verbatim {req : ServerRequest Uri FieldMap} {server : Server Uri}
    {r : ClientRequest Uri FieldMap} (hr : fieldMap.Received req.headers)
    (h : backendRequest hyper fieldMap (mapRequest fieldMap req) server = some r)
    (hsent : fieldMap.Received r.headers) : Passes hyper fieldMap req (verbatim r) := by
  refine ⟨server, r, h, rfl, rfl, rfl, hsent, fun _ _ => rfl, ?_⟩
  rintro name ⟨o, ho, -⟩
  have hnone : fieldMap.getRaw r.headers "Connection" = none := by
    rw [getRaw_forwarded fieldMap_removes fieldMap_sets fieldMap_extends fieldMap_readsConnection
      hr h (by rintro (h | h); exacts [absurd h (by decide), absurd h.2 (by decide)])]
    exact if_pos (Or.inr (by decide))
  have hentries : fieldMap.entriesOf (verbatim r).headers "Connection" = [] := by
    rw [HyperHeaders.entriesOf, HyperHeaders.linesOf,
      show (verbatim r).headers = r.headers from rfl, hnone]
    rfl
  rw [hentries] at ho
  cases ho

def relayed : ServerRequest SourceUri FieldMap :=
  verbatim ((backendRequest sourceText fieldMap (mapRequest fieldMap acceptTwice)
    originServer).get (by decide))

def relayedTwice : ServerRequest SourceUri FieldMap :=
  verbatim ((backendRequest sourceText fieldMap (mapRequest fieldMap relayed)
    originServer).get (by decide))

theorem through_two_proxies :
    fieldMap.entriesOf relayedTwice.headers "Via" =
      (if (fieldMap.linesOf acceptTwice.headers "Via").length ≤ 1 ∧
        fieldMap.Readable acceptTwice.headers "Via" then
        fieldMap.entriesOf acceptTwice.headers "Via" else []) ++
        (acceptTwice.version.viaText ++ " weldr").toUTF8 ::
          List.replicate 1 "1.1 weldr".toUTF8 ∧
    relayedTwice.method = acceptTwice.method ∧ relayedTwice.body = acceptTwice.body ∧
    ∀ name, ¬ Among ("Close" :: hopByHop) name → foldName name ≠ foldName "Via" →
      foldName name ≠ foldName "Host" →
      ¬ fieldMap.NamedByConnection acceptTwice.headers name →
        fieldMap.getRaw relayedTwice.headers name = fieldMap.getRaw acceptTwice.headers name := by
  have hfirst : fieldMap.Received acceptTwice.headers := show FieldMap.OneLined _ by decide
  have hsecond : fieldMap.Received relayed.headers := show FieldMap.OneLined _ by decide
  have hthird : fieldMap.Received relayedTwice.headers := show FieldMap.OneLined _ by decide
  exact through_proxies fieldMap_lawful acceptTwice relayedTwice 1
    (.passed (.passed (.received hfirst)
      (passes_verbatim hfirst (Option.some_get _).symm hsecond))
      (passes_verbatim hsecond (Option.some_get _).symm hthird))

end Instance

end ProxyChain
