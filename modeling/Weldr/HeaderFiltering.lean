import Weldr.ComposedUrls

/-! Which headers the proxy passes on, and what becomes of `Via`. Both filters take a fixed list
of names out of the collection; that of requests also what the `Connection` header of the
request names, if it can be read. -/
namespace HeaderFiltering

open HttpHeaders RequestTargets BackendPool Proxy

/-- The hop-by-hop headers of RFC 2616, section 13.5.1. -/
def hopByHop : List String :=
  ["Connection", "Keep-Alive", "Proxy-Authenticate", "Proxy-Authorization", "TE", "Trailer",
    "Transfer-Encoding", "Upgrade"]

/-- Those of them that a request can carry. -/
def requestHopByHop : List String :=
  ["Connection", "Keep-Alive", "Proxy-Authorization", "TE", "Trailer", "Transfer-Encoding",
    "Upgrade"]

def frontendRemoved : List String :=
  ["Connection", "TE", "Transfer-Encoding", "Proxy-Authorization", "Trailer", "Upgrade"]

def backendRemoved : List String :=
  ["Transfer-Encoding", "Proxy-Authenticate", "Trailer", "Upgrade"]

def Among (names : List String) (name : String) : Prop := ∃ n ∈ names, foldName n = foldName name

instance (names : List String) (name : String) : Decidable (Among names name) :=
  inferInstanceAs (Decidable (∃ n ∈ names, foldName n = foldName name))

theorem Among.subset {names names' : List String} {name : String} (h : Among names name)
    (hsub : names ⊆ names') : Among names' name := by
  obtain ⟨n, hn, he⟩ := h
  exact ⟨n, hsub hn, he⟩

section Filters

variable {Headers : Type} {lib : HyperHeaders Headers}

theorem getRaw_removeOptions (hremove : lib.Removes) (options : List ConnectionOption)
    (h : Headers) (name : String) :
    lib.getRaw (removeOptions lib options h) name =
      if ∃ o ∈ options, foldName o.headerName = foldName name then none
      else lib.getRaw h name := by
  induction options generalizing h with
  | nil => simp [removeOptions]
  | cons option options ih =>
    have hstep : removeOptions lib (option :: options) h =
        removeOptions lib options (lib.removeRaw h option.headerName) := by
      cases option <;> rfl
    rw [hstep, ih, hremove.raw]
    by_cases hn : foldName option.headerName = foldName name
    · simp [hn]
    · simp [hn, Ne.symm hn]

theorem getRaw_removeTyped (hremove : lib.Removes) (ts : List TypedHeader) (h : Headers)
    (name : String) :
    lib.getRaw (ts.foldl lib.remove h) name =
      if Among (ts.map TypedHeader.headerName) name then none else lib.getRaw h name := by
  induction ts generalizing h with
  | nil => simp [Among]
  | cons t ts ih =>
    rw [List.foldl_cons, ih, hremove.typed]
    by_cases hn : foldName t.headerName = foldName name
    · simp [Among, hn]
    · simp [Among, hn, Ne.symm hn]

def Withheld (lib : HyperHeaders Headers) (h : Headers) (name : String) : Prop :=
  (lib.Readable h "Connection" ∧ lib.NamedByConnection h name) ∨ Among frontendRemoved name

instance (lib : HyperHeaders Headers) (h : Headers) (name : String) :
    Decidable (Withheld lib h name) := inferInstanceAs (Decidable (_ ∨ _))

theorem getRaw_filterFrontend (hremove : lib.Removes) (hconnection : lib.ReadsConnection)
    {h : Headers} (hr : lib.Received h) (name : String) :
    lib.getRaw (filterFrontendRequestHeaders lib h) name =
      if Withheld lib h name then none else lib.getRaw h name := by
  have hfilter : filterFrontendRequestHeaders lib h =
      [.connection, .te, .transferEncoding, .proxyAuthorization, .trailer, .upgrade].foldl
        lib.remove (removeOptions lib ((lib.getConnection h).getD []) h) := by
    rw [filterFrontendRequestHeaders]
    cases lib.getConnection h <;> rfl
  rw [hfilter, getRaw_removeTyped hremove, getRaw_removeOptions hremove]
  simp only [mem_options_iff hconnection hr]
  change (if Among frontendRemoved name then none else _) = _
  by_cases hfixed : Among frontendRemoved name <;> simp [Withheld, hfixed]

theorem getRaw_filterBackend (hremove : lib.Removes) (h : Headers) (name : String) :
    lib.getRaw (filterBackendResponseHeaders lib h) name =
      if Among backendRemoved name then none else lib.getRaw h name :=
  getRaw_removeTyped hremove [.transferEncoding, .proxyAuthenticate, .trailer, .upgrade] h name

theorem getRaw_mapResponse (hremove : lib.Removes) (hextends : lib.Extends)
    (res : Response Headers) (name : String) :
    lib.getRaw (mapResponse lib res).headers name =
      if Among backendRemoved name then none else lib.getRaw res.headers name := by
  rw [← getRaw_filterBackend hremove, mapResponse, hextends.extend, hextends.new, Option.or_none]

theorem has_filterFrontend (hremove : lib.Removes) (hconnection : lib.ReadsConnection)
    {h : Headers} (hr : lib.Received h) {name : String} :
    lib.Has (filterFrontendRequestHeaders lib h) name ↔ lib.Has h name ∧ ¬ Withheld lib h name :=
  has_iff_of_getRaw (getRaw_filterFrontend hremove hconnection hr name)

theorem has_mapResponse (hremove : lib.Removes) (hextends : lib.Extends)
    {res : Response Headers} {name : String} :
    lib.Has (mapResponse lib res).headers name ↔
      lib.Has res.headers name ∧ ¬ Among backendRemoved name :=
  has_iff_of_getRaw (getRaw_mapResponse hremove hextends res name)

/-- A request sheds its hop-by-hop headers and all that its `Connection` header names, unless
it has a `Keep-Alive` header that `Connection` does not name, or `Connection` is no text and
names a header that is not in the fixed list. -/
theorem request_hop_free_iff (hremove : lib.Removes) (hconnection : lib.ReadsConnection)
    (h : Headers) (hr : lib.Received h) :
    ((∀ name ∈ requestHopByHop, ¬ lib.Has (filterFrontendRequestHeaders lib h) name) ∧
      ∀ name, lib.NamedByConnection h name →
        ¬ lib.Has (filterFrontendRequestHeaders lib h) name) ↔
      (lib.Has h "Keep-Alive" → lib.NamedByConnection h "Keep-Alive") ∧
      (¬ lib.Readable h "Connection" → ∀ name, lib.Has h name → lib.NamedByConnection h name →
        Among frontendRemoved name) := by
  simp only [has_filterFrontend hremove hconnection hr]
  constructor
  · rintro ⟨hfree, hnone⟩
    constructor
    · intro hkeep
      by_contra hnamed
      refine hfree "Keep-Alive" (by decide) ⟨hkeep, ?_⟩
      exact not_or.mpr ⟨fun h => hnamed h.2, by decide⟩
    · intro hread name hin hnamed
      by_contra hfixed
      exact hnone name hnamed ⟨hin, not_or.mpr ⟨fun h => hread h.1, hfixed⟩⟩
  · rintro ⟨hkeep, hunread⟩
    have hgone : ∀ name, lib.NamedByConnection h name → lib.Has h name →
        Withheld lib h name := by
      intro name hnamed hin
      by_cases hread : lib.Readable h "Connection"
      · exact Or.inl ⟨hread, hnamed⟩
      · exact Or.inr (hunread hread name hin hnamed)
    constructor
    · rintro name hname ⟨hin, hpasses⟩
      -- `Keep-Alive` is the only one that is not in the fixed list
      obtain rfl : name = "Keep-Alive" := by
        have hfixed := (not_or.mp hpasses).2
        clear hkeep hunread hgone hin hpasses
        revert name
        decide
      exact hpasses (hgone _ (hkeep hin) hin)
    · rintro name hnamed ⟨hin, hpasses⟩
      exact hpasses (hgone name hnamed hin)

theorem request_hop_free_named :
    let h := FieldMap.ofText [("connection", ["keep-alive, X-Trace"]), ("X-Trace", ["a"]),
      ("Keep-Alive", ["timeout=30"])]
    ((∀ name ∈ requestHopByHop, ¬ fieldMap.Has (filterFrontendRequestHeaders fieldMap h) name) ∧
      ∀ name, fieldMap.NamedByConnection h name →
        ¬ fieldMap.Has (filterFrontendRequestHeaders fieldMap h) name) :=
  (request_hop_free_iff fieldMap_removes fieldMap_readsConnection _
    (show FieldMap.OneLined _ by decide)).mpr ⟨by decide, fun h => absurd (by decide) h⟩

theorem keep_alive_passes :
    ¬ ∀ name ∈ requestHopByHop, ¬ fieldMap.Has (filterFrontendRequestHeaders fieldMap
      (FieldMap.ofText [("Keep-Alive", ["timeout=30"])])) name := by
  decide

/-- A response sheds its hop-by-hop headers and all that its `Connection` header names only if
it has none of those that the filter of responses does not know. -/
theorem response_hop_free_iff (hremove : lib.Removes) (hextends : lib.Extends)
    (res : Response Headers) :
    ((∀ name ∈ hopByHop, ¬ lib.Has (mapResponse lib res).headers name) ∧
      ∀ name, lib.NamedByConnection res.headers name →
        ¬ lib.Has (mapResponse lib res).headers name) ↔
      ∀ name ∈ ["Connection", "Keep-Alive", "Proxy-Authorization", "TE"],
        ¬ lib.Has res.headers name := by
  simp only [has_mapResponse hremove hextends]
  constructor
  · rintro ⟨hfree, -⟩ name hname hin
    have hkept : name ∈ hopByHop ∧ ¬ Among backendRemoved name := by
      clear hfree hin
      revert name
      decide
    exact hfree name hkept.1 ⟨hin, hkept.2⟩
  · intro hnone
    constructor
    · rintro name hname ⟨hin, hfixed⟩
      refine hnone name ?_ hin
      clear hnone hin
      revert name
      decide
    · rintro name ⟨o, ho, -⟩
      have hconnection : lib.getRaw res.headers "Connection" = none := by
        simpa [HyperHeaders.Has] using hnone "Connection" (by simp)
      simp [HyperHeaders.entriesOf, HyperHeaders.linesOf, hconnection] at ho

theorem response_hop_free_upgrade :
    let res : Response FieldMap :=
      { status := 200
        headers := FieldMap.ofText [("upgrade", ["h2c"]), ("Trailer", ["X-Trace"])] }
    (∀ name ∈ hopByHop, ¬ fieldMap.Has (mapResponse fieldMap res).headers name) ∧
      ∀ name, fieldMap.NamedByConnection res.headers name →
        ¬ fieldMap.Has (mapResponse fieldMap res).headers name :=
  (response_hop_free_iff fieldMap_removes fieldMap_extends _).mpr (by decide)

theorem response_connection_passes :
    let res : Response FieldMap :=
      { status := 200
        headers := FieldMap.ofText [("Connection", ["close, X-Trace"]), ("X-Trace", ["a"])] }
    (¬ ∀ name ∈ hopByHop, ¬ fieldMap.Has (mapResponse fieldMap res).headers name) ∧
      fieldMap.NamedByConnection res.headers "X-Trace" ∧
      fieldMap.Has (mapResponse fieldMap res).headers "X-Trace" := by
  decide

end Filters

section EndToEnd

variable {Uri Headers : Type} {hyper : HyperUri Uri} {lib : HyperHeaders Headers}

def SetByProxy (server : Server Uri) (name : String) : Prop :=
  foldName name = foldName "Via" ∨ (server.mapHost = true ∧ foldName name = foldName "Host")

instance (server : Server Uri) (name : String) : Decidable (SetByProxy server name) :=
  inferInstanceAs (Decidable (_ ∨ _))

theorem getRaw_mapRequest (hsets : lib.Sets) (hextends : lib.Extends)
    (req : ServerRequest Uri Headers) {name : String} (hvia : foldName name ≠ foldName "Via") :
    lib.getRaw (mapRequest lib req).headers name =
      lib.getRaw (filterFrontendRequestHeaders lib req.headers) name := by
  rw [mapRequest, hextends.extend, hextends.new, Option.or_none]
  exact hsets.other _ .via _ _ hvia

theorem getRaw_backendRequest (hremove : lib.Removes) (hsets : lib.Sets)
    {clientReq r : ClientRequest Uri Headers} {server : Server Uri}
    (h : backendRequest hyper lib clientReq server = some r) {name : String}
    (hhost : ¬ (server.mapHost = true ∧ foldName name = foldName "Host")) :
    lib.getRaw r.headers name = lib.getRaw clientReq.headers name := by
  obtain ⟨uri, -, hr⟩ := Option.bind_eq_some_iff.mp h
  by_cases hmap : server.mapHost = true
  · have hother : foldName name ≠ foldName "Host" := fun he => hhost ⟨hmap, he⟩
    rw [if_pos hmap] at hr
    obtain ⟨host, -, hr⟩ := Option.bind_eq_some_iff.mp hr
    obtain rfl := Option.some.inj hr
    exact (hsets.other _ .host _ _ hother).trans ((hremove.typed _ .host _).trans (if_neg hother))
  · rw [if_neg hmap] at hr
    obtain rfl := Option.some.inj hr
    rfl

theorem getRaw_forwarded (hremove : lib.Removes) (hsets : lib.Sets) (hextends : lib.Extends)
    (hconnection : lib.ReadsConnection) {req : ServerRequest Uri Headers} {server : Server Uri}
    {r : ClientRequest Uri Headers} (hr : lib.Received req.headers)
    (h : backendRequest hyper lib (mapRequest lib req) server = some r) {name : String}
    (hown : ¬ SetByProxy server name) :
    lib.getRaw r.headers name =
      if Withheld lib req.headers name then none else lib.getRaw req.headers name := by
  obtain ⟨hvia, hhost⟩ := not_or.mp hown
  rw [getRaw_backendRequest hremove hsets h hhost, getRaw_mapRequest hsets hextends req hvia,
    getRaw_filterFrontend hremove hconnection hr]

/-- End-to-end headers go through with their lines as they are, and no header is made up but
those that the proxy sets in a request. -/
theorem end_to_end_unchanged (hyper : HyperUri Uri) (hremove : lib.Removes) (hsets : lib.Sets)
    (hextends : lib.Extends) (hconnection : lib.ReadsConnection) :
    (∀ req server r, lib.Received req.headers →
      backendRequest hyper lib (mapRequest lib req) server = some r → ∀ name,
      ¬ SetByProxy server name →
        (¬ Among hopByHop name → ¬ lib.NamedByConnection req.headers name →
          lib.getRaw r.headers name = lib.getRaw req.headers name) ∧
        (lib.Has r.headers name → lib.Has req.headers name)) ∧
    ∀ res name,
      (¬ Among hopByHop name → ¬ lib.NamedByConnection res.headers name →
        lib.getRaw (mapResponse lib res).headers name = lib.getRaw res.headers name) ∧
      (lib.Has (mapResponse lib res).headers name → lib.Has res.headers name) := by
  constructor
  · intro req server r hr h name hown
    have hget := getRaw_forwarded hremove hsets hextends hconnection hr h hown
    constructor
    · intro hend hnamed
      have hkept : ¬ Withheld lib req.headers name := by
        rintro (⟨-, hin⟩ | hin)
        · exact hnamed hin
        · exact hend (hin.subset (by decide))
      rw [hget, if_neg hkept]
    · exact fun hhas => ((has_iff_of_getRaw hget).mp hhas).1
  · intro res name
    constructor
    · intro hend _
      have hkept : ¬ Among backendRemoved name := fun hin => hend (hin.subset (by decide))
      rw [getRaw_mapResponse hremove hextends, if_neg hkept]
    · exact fun hhas => ((has_mapResponse hremove hextends).mp hhas).1

end EndToEnd

section Instance

open SourceText ComposedUrls

def originServer : Server SourceUri := { url := serverUri, mapHost := true }

def acceptTwice : ServerRequest SourceUri FieldMap :=
  { method := .get
    uri := (sourceText.fromStr "/a?b").get rfl
    version := .http11
    headers := FieldMap.ofText
      [("Connection", ["X-Trace"]), ("X-Trace", ["a"]), ("Accept", ["text/html", "text/plain"])]
    body := [] }

theorem end_to_end_accept :
    (∃ r, backendRequest sourceText fieldMap (mapRequest fieldMap acceptTwice) originServer =
      some r ∧ fieldMap.getRaw r.headers "Accept" = fieldMap.getRaw acceptTwice.headers "Accept") ∧
    fieldMap.getRaw
        (mapResponse fieldMap { status := 200, headers := acceptTwice.headers }).headers "accept" =
      fieldMap.getRaw acceptTwice.headers "accept" := by
  have hsome : (backendRequest sourceText fieldMap (mapRequest fieldMap acceptTwice)
      originServer).isSome := by decide
  obtain ⟨r, hr⟩ := Option.isSome_iff_exists.mp hsome
  have hreceived : fieldMap.Received acceptTwice.headers := show FieldMap.OneLined _ by decide
  have hunchanged := end_to_end_unchanged sourceText fieldMap_removes fieldMap_sets
    fieldMap_extends fieldMap_readsConnection
  exact ⟨⟨r, hr, (hunchanged.1 _ _ r hreceived hr "Accept" (by decide)).1 (by decide) (by decide)⟩,
    (hunchanged.2 _ "accept").1 (by decide) (by decide)⟩

end Instance

end HeaderFiltering

namespace ViaChain

open HttpHeaders Proxy

variable {Uri Headers : Type} {lib : HyperHeaders Headers}

def viaEntry (version : HttpVersion) : String := version.viaText ++ " weldr"

/-- The entries of the received `Via` that the proxy knows of: those of a single line that is
text. -/
def knownEntries (lib : HyperHeaders Headers) (h : Headers) : List ByteArray :=
  if (lib.linesOf h "Via").length ≤ 1 ∧ lib.Readable h "Via" then lib.entriesOf h "Via" else []

theorem commaSeparated_entry (version : HttpVersion) :
    commaSeparated (viaEntry version) = [viaEntry version] := by
  cases version <;> decide

theorem createViaHeader_some (line : String) (version : HttpVersion) :
    (createViaHeader (some (Via.mk line)) version).value =
      line ++ "," ++ (" " ++ viaEntry version) := by
  change line ++ ("," ++ " " ++ viaEntry version) = _
  rw [String.append_assoc, String.append_assoc]

theorem commaSeparated_createViaHeader (via : Option String) (version : HttpVersion) :
    commaSeparated (createViaHeader (via.map Via.mk) version).value =
      via.elim [] commaSeparated ++ [viaEntry version] := by
  cases via with
  | none => exact commaSeparated_entry version
  | some line =>
    rw [Option.map_some, createViaHeader_some, commaSeparated_append, commaSeparated_room,
      commaSeparated_entry]
    rfl

theorem oneLine_createViaHeader {via : Option String} (h : ∀ line ∈ via, OneLine line)
    (version : HttpVersion) : OneLine (createViaHeader (via.map Via.mk) version).value := by
  have hentry : OneLine (viaEntry version) := by cases version <;> decide
  cases via with
  | none => exact hentry
  | some line =>
    rw [Option.map_some, createViaHeader_some]
    exact ((h line rfl).append (by decide)).append (OneLine.append (by decide) hentry)

theorem getVia_entries (hvia : lib.ReadsVia) {h : Headers} (hr : lib.Received h) :
    ((lib.getVia h).elim [] commaSeparated).map String.toUTF8 = knownEntries lib h ∧
      ∀ line ∈ lib.getVia h, OneLine line := by
  have hlines : lib.linesOf h "Via" = (lib.getRaw h "Via").getD [] := rfl
  rw [hvia.read h hr]
  match hget : lib.getRaw h "Via" with
  | none | some [] =>
    simp [knownEntries, HyperHeaders.entriesOf, hlines, hget]
  | some [line] =>
    by_cases hempty : line.size = 0
    · have hline : line = "".toUTF8 := ByteArray.ext (Array.eq_empty_of_size_eq_zero hempty)
      have hnone : entries line = [] := by rw [hline]; decide
      simp [knownEntries, HyperHeaders.entriesOf, hlines, hget, hempty, hnone]
    · cases hs : String.fromUTF8? line with
      | none => simp [knownEntries, HyperHeaders.Readable, hlines, hget, hempty, hs]
      | some s =>
        have hone := hvia.oneLine h hr line (by simp [hlines, hget]) s hs
        simp [knownEntries, HyperHeaders.Readable, HyperHeaders.entriesOf, hlines, hget, hempty,
          hs, entries_of_text hs, commaSeparated_trimText, hone.trimText]
  | some (line :: line' :: lines) => simp [knownEntries, hlines, hget]

theorem entries_mapRequest (hsets : lib.Sets) (hextends : lib.Extends) (hvia : lib.ReadsVia)
    (req : ServerRequest Uri Headers) (hr : lib.Received req.headers) :
    ∃ line, lib.getRaw (mapRequest lib req).headers "Via" = some [line] ∧
      (String.fromUTF8? line).isSome ∧
      entries line = knownEntries lib req.headers ++ [(viaEntry req.version).toUTF8] := by
  obtain ⟨hentries, hbreaks⟩ := getVia_entries hvia hr
  have hline := oneLine_createViaHeader hbreaks req.version
  refine ⟨(createViaHeader ((lib.getVia req.headers).map Via.mk) req.version).value.toUTF8,
    ?_, ?_, ?_⟩
  · rw [mapRequest, hextends.extend, hextends.new, Option.or_none]
    exact hsets.same _ .via _ _ hline rfl
  · rw [fromUTF8?_toUTF8]
    rfl
  · rw [entries_toUTF8, commaSeparated_createViaHeader, List.map_append, hentries]
    rfl

/-- The chain grows by the entry of this proxy exactly if it came in one line of text at most,
or had no entry. -/
theorem via_grows_iff (hsets : lib.Sets) (hextends : lib.Extends) (hvia : lib.ReadsVia)
    (req : ServerRequest Uri Headers) (hr : lib.Received req.headers) :
    lib.entriesOf (mapRequest lib req).headers "Via" =
        lib.entriesOf req.headers "Via" ++ [(req.version.viaText ++ " weldr").toUTF8] ↔
      ((lib.linesOf req.headers "Via").length ≤ 1 ∧ lib.Readable req.headers "Via") ∨
        lib.entriesOf req.headers "Via" = [] := by
  obtain ⟨line, hget, -, hentries⟩ := entries_mapRequest hsets hextends hvia req hr
  have hafter : lib.entriesOf (mapRequest lib req).headers "Via" =
      knownEntries lib req.headers ++ [(viaEntry req.version).toUTF8] := by
    rw [HyperHeaders.entriesOf, HyperHeaders.linesOf, hget, Option.getD_some,
      List.flatMap_singleton, hentries]
  rw [hafter, knownEntries]
  by_cases hone : (lib.linesOf req.headers "Via").length ≤ 1 ∧ lib.Readable req.headers "Via"
  · rw [if_pos hone]
    exact iff_of_true rfl (Or.inl hone)
  · rw [if_neg hone]
    simp only [hone, false_or]
    exact (List.append_left_inj _).trans eq_comm

def viaRequest (lines : List String) : ServerRequest String FieldMap :=
  { method := .get, uri := "/", version := .http11, body := []
    headers := FieldMap.ofText [("Via", lines)] }

theorem via_grows_line :
    fieldMap.entriesOf (mapRequest fieldMap (viaRequest ["1.0 a, 1.1 b "])).headers "via" =
      fieldMap.entriesOf (viaRequest ["1.0 a, 1.1 b "]).headers "Via" ++
        ["1.1 weldr".toUTF8] :=
  (via_grows_iff fieldMap_sets fieldMap_extends fieldMap_readsVia _
    (show FieldMap.OneLined _ by decide)).mpr (Or.inl (by decide))

theorem via_lines_dropped :
    let req := viaRequest ["1.0 a", "1.1 b, 1.1 c"]
    fieldMap.entriesOf req.headers "Via" = ["1.0 a", "1.1 b", "1.1 c"].map String.toUTF8 ∧
      fieldMap.entriesOf (mapRequest fieldMap req).headers "Via" = ["1.1 weldr".toUTF8] := by
  decide

end ViaChain
