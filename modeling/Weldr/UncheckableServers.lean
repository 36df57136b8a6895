import Weldr.CheckedPublications

/-! A server whose url with the path of the check behind it is no url. It is never checked: the
first timer after its post takes it down, and nothing brings it back. -/
namespace UncheckableServers

open BackendPool TransitionSystems PoolSteps PoolServerSet SubscriberProtocol PoolView HealthMonitor
  HealthPhases ManagementApi ManagerProcess ManagerRecords ReplicaAgreement PublicationStory
  CheckedPublications

variable {Uri H : Type} [DecidableEq Uri]

def idleNext (S : Setting Uri H) (url : Uri) (st : Option ServerState) (e : Event) :
    Option ServerState :=
  match st, e with
  | none, e => if postedBy S e = some url then some .active else none
  | some _, .timer => some .down
  | some st, _ => some st

def idleSystem (S : Setting Uri H) (url : Uri) : System (Option ServerState) Event :=
  { Enabled := fun _ _ => True, next := idleNext S url }

def idleTold (S : Setting Uri H) (url : Uri) (st : Option ServerState) (e : Event) :
    List (Publication Uri) :=
  if postedBy S e = some url then [.newServer url]
  else if st = some .active ∧ e = .timer then [.serverStateDown url] else []

structure Idle (url : Uri) (st : Option ServerState) (c : Core Uri H) : Prop where
  managed : Managed c
  unpended : ∀ b ∈ c.pending, b.server c.pool.heap ≠ serverOf url
  state : stateIn (view c.pool) (serverOf url) = st

variable {S : Setting Uri H} {url : Uri} {st : Option ServerState} {c d : Core Uri H}

theorem eventsAt_single (url : Uri) (p : Publication Uri) :
    eventsAt urlOf url [p] = if urlOf p = url then [p] else [] := by
  by_cases hp : urlOf p = url <;> simp [eventsAt, hp]

theorem Idle.tell (hc : Idle url st c) {p : Publication Uri}
    (hr : Recorded c (d, [(p, d.pool)])) (hdue : Due (view c.pool) p)
    (hpend : ∀ b ∈ d.pending, b ∈ c.pending)
    (hserver : ∀ b ∈ c.pending, b.server d.pool.heap = b.server c.pool.heap) :
    Idle url (if urlOf p = url then some (announced p) else st) d := by
  refine ⟨hr.managed, ?_, ?_⟩
  · intro b hb
    rw [hserver b (hpend b hb)]
    exact hc.unpended b (hpend b hb)
  · have hview : view d.pool = applied (view c.pool) p := hr.records.1
    rw [hview, stateIn_applied hdue]
    by_cases hp : urlOf p = url
    · rw [if_pos hp, if_pos (by rw [hp])]
    · have hne : serverOf url ≠ serverOf (urlOf p) := fun h => hp (congrArg Server.url h).symm
      rw [if_neg hp, if_neg hne, hc.state]

theorem Idle.quiet (hc : Idle url st c) (hd : Managed d) (hp : d.pool = c.pool)
    (hpend : ∀ b ∈ d.pending, b.server c.pool.heap ≠ serverOf url) : Idle url st d := by
  refine ⟨hd, ?_, ?_⟩ <;> rw [hp]
  · exact hpend
  · exact hc.state

theorem Idle.own_state (hc : Idle url st c) {b : Backend} (hb : b ∈ c.pool.inner.backends)
    (hs : b.server c.pool.heap = serverOf url) : st = some (b.read c.pool.heap).state := by
  rw [← hc.state, ← hs, stateIn_view hc.managed.distinct hb]

theorem disabled_idle (hc : Idle url st c) {b : Backend} (hb : b ∈ c.pool.inner.backends)
    (ha : b.isActive c.pool.heap = true)
    (hd : d = { c with pool := { c.pool with heap := b.markDown c.pool.heap } })
    (hr : Recorded c (d, [(.serverStateDown (b.server d.pool.heap).url, d.pool)])) :
    let own := b.server c.pool.heap = serverOf url
    Idle url (if own then some .down else st) d ∧
      eventsAt urlOf url [.serverStateDown (b.server d.pool.heap).url] =
        if own ∧ st = some .active then [.serverStateDown url] else [] := by
  intro own
  have hserver : ∀ a : Backend, a.server d.pool.heap = a.server c.pool.heap := by
    intro a
    rw [hd]
    exact server_markDown b a _
  have hurl : urlOf (.serverStateDown (b.server d.pool.heap).url) = url ↔ own := by
    rw [hserver]
    exact ⟨fun h => (serverOf_pooled hc.managed hb).symm.trans (congrArg serverOf h),
      fun h => congrArg Server.url h⟩
  have hdue : Due (view c.pool) (.serverStateDown (b.server d.pool.heap).url) := by
    rw [hserver]
    exact due_mark hc.managed hb .down (by rw [of_decide_eq_true ha]; simp)
  have htell := hc.tell hr hdue (by rw [hd]; exact fun _ hb => hb) fun a _ => hserver a
  have htold := eventsAt_single url (.serverStateDown (b.server d.pool.heap).url)
  simp only [hurl] at htell htold
  refine ⟨htell, htold.trans ?_⟩
  by_cases hs : own
  · have hst : (b.read c.pool.heap).state = .active := of_decide_eq_true ha
    have hpub : (b.server d.pool.heap).url = url := hurl.mpr hs
    rw [if_pos hs, if_pos ⟨hs, by rw [hc.own_state hb hs, hst]⟩, hpub]
  · rw [if_neg hs, if_neg fun h => hs h.1]

theorem checkBackend_idle (hbad : ¬ Checkable S url) (hc : Idle url st c) {b : Backend}
    (hb : b ∈ c.pool.inner.backends) :
    let own := b.server c.pool.heap = serverOf url
    Idle url (if own then some .down else st) (checkBackend S c b).1 ∧
      eventsAt urlOf url ((checkBackend S c b).2.map Prod.fst) =
        if own ∧ st = some .active then [.serverStateDown url] else [] := by
  intro own
  have hrec := checkBackend_recorded S hc.managed hb
  revert hrec
  unfold checkBackend checkStart
  cases hu : S.hyper.fromStr
      (S.hyper.display (b.server c.pool.heap).url ++ S.config.uriPath) with
  | some target =>
    intro hrec
    have hother : ¬ own := fun hs => hbad ⟨target, by rw [← hu, hs]; rfl⟩
    simp only [hother, if_false, false_and]
    refine ⟨hc.quiet hrec.managed rfl ?_, rfl⟩
    intro a ha
    rcases List.mem_append.mp ha with ha | ha
    · exact hc.unpended a ha
    · rw [List.mem_singleton.mp ha]
      exact hother
  | none =>
    by_cases ha : b.isActive c.pool.heap = true
    · simp only [ha, if_true]
      exact disabled_idle hc hb ha rfl
    · simp only [ha]
      intro hrec
      have hst : (b.read c.pool.heap).state = .down :=
        state_eq_of_ne (of_decide_eq_false (Bool.eq_false_iff.mpr ha)) (by decide)
      have hdown : own → st = some .down := fun hs => by rw [hc.own_state hb hs, hst]
      have hkeep : (if own then some ServerState.down else st) = st := by
        split
        · next hs => exact (hdown hs).symm
        · rfl
      have hnone : ¬ (own ∧ st = some .active) := by
        rintro ⟨hs, hact⟩
        rw [hdown hs] at hact
        cases hact
      rw [hkeep, if_neg hnone]
      exact ⟨hc.quiet hrec.managed rfl hc.unpended, rfl⟩

omit [DecidableEq Uri] in
theorem server_checkBackend (b a : Backend) :
    a.server (checkBackend S c b).1.pool.heap = a.server c.pool.heap := by
  unfold checkBackend checkStart
  cases S.hyper.fromStr (S.hyper.display (b.server c.pool.heap).url ++ S.config.uriPath) with
  | some target => rfl
  | none => by_cases ha : b.isActive c.pool.heap = true <;> simp [ha]

theorem healthRun_idle (hbad : ¬ Checkable S url) (hc : Idle url st c) {bs : List Backend}
    (hbs : ∀ b ∈ bs, b ∈ c.pool.inner.backends) :
    let own := ∃ b ∈ bs, b.server c.pool.heap = serverOf url
    Idle url (if own then some .down else st) (healthRun S c bs).1 ∧
      eventsAt urlOf url ((healthRun S c bs).2.map Prod.fst) =
        if own ∧ st = some .active then [.serverStateDown url] else [] := by
  induction bs generalizing c st with
  | nil => simpa using ⟨hc, rfl⟩
  | cons b bs ih =>
    have hrec := checkBackend_recorded S hc.managed (hbs b (by simp))
    obtain ⟨hone, htold⟩ := checkBackend_idle hbad hc (hbs b (by simp))
    obtain ⟨hrest, htold'⟩ := ih hone fun a ha => hrec.backends.subset (hbs a (by simp [ha]))
    have hservers : ∀ a : Backend,
        a.server (checkBackend S c b).1.pool.heap = a.server c.pool.heap := server_checkBackend b
    simp only [hservers] at hrest htold'
    have hown : (∃ a ∈ b :: bs, a.server c.pool.heap = serverOf url) ↔
        b.server c.pool.heap = serverOf url ∨ ∃ a ∈ bs, a.server c.pool.heap = serverOf url := by
      simp
    intro own
    simp only [own, hown]
    rw [healthRun, List.map_append, eventsAt_append, htold]
    by_cases hs : b.server c.pool.heap = serverOf url
    · simp only [hs, if_true, true_and, true_or, ite_self] at hrest htold' ⊢
      rw [htold'.trans (if_neg (by simp)), List.append_nil]
      exact ⟨hrest, rfl⟩
    · simp only [hs, if_false, false_and, false_or, List.nil_append] at hrest htold' ⊢
      exact ⟨hrest, htold'⟩

theorem post_idle (hc : Idle url st c) {u : Uri} (hu : serverOf u ∉ c.pool.servers)
    (hr : Recorded c (d, [(.newServer u, d.pool)]))
    (hpool : d.pool = PoolOp.next c.pool (.add (serverOf u))) (hpend : d.pending = c.pending) :
    Idle url (if u = url then some .active else st) d := by
  have hdue : Due (view c.pool) (.newServer u) := by
    rw [Due, stateIn_eq_none, view_servers]
    exact hu
  refine hc.tell hr hdue (fun b hb => hpend ▸ hb) fun b hb => ?_
  have hwf := hc.managed.distinct.wellFormed
  rw [hpool]
  exact next_server hwf _ (hwf.allocated b (hc.managed.pending b hb))

variable [DecidableEq H]

theorem checked_idle (hc : Idle url st c) (j : ℕ) (res : CheckResult) :
    Idle url st (checked S c j res).1 ∧
      eventsAt urlOf url ((checked S c j res).2.map Prod.fst) = [] ∧
      resultsOn url c (.checked j res) = [] := by
  have hrec := checked_recorded S hc.managed j res
  simp only [resultsOn]
  cases hj : c.pending[j]? with
  | none =>
    simp only [checked, hj]
    exact ⟨hc, rfl, trivial⟩
  | some b =>
    have hin := List.mem_of_getElem? hj
    have hb : b ∈ c.pool.inner.backends := hc.managed.pending b hin
    have hother := hc.unpended b hin
    have hpend : ∀ a ∈ c.pending.eraseIdx j, a ∈ c.pending := fun a ha =>
      List.mem_of_mem_eraseIdx ha
    refine ⟨?_, told_other hc.managed hb hother hj res, if_neg hother⟩
    simp only [checked, hj] at hrec ⊢
    cases hp : (checkDone S.hash S.config (monitor c) b res).2 with
    | none =>
      refine hc.quiet hrec.managed ?_ fun a ha => hc.unpended a (hpend a ha)
      have hheap := heap_checkDone hp
      simp only [monitor] at hheap
      simp only [hheap]
    | some p =>
      have hne : urlOf p ≠ url := by
        rintro rfl
        exact hother ((serverOf_pooled hc.managed hb).symm.trans (by rw [urlOf_checkDone hp]; rfl))
      have hdue := due_checkDone S hc.managed hb hp
      simp only [monitor] at hp
      simp only [hp] at hrec
      have htell := hc.tell hrec hdue hpend fun a _ =>
        server_checkDone S.config (monitor c) b res a
      rwa [if_neg hne] at htell

theorem next_idle (hbad : ¬ Checkable S url) (hc : Idle url st c) {e : Event}
    (hnew : NewPost S c e) :
    Idle url (idleNext S url st e) (ManagerProcess.next S c e) ∧
      toldOf S url c e = idleTold S url st e ∧ resultsOn url c e = [] := by
  have hrec := next_recorded hc.managed (freshPost_of_new hnew)
  cases e with
  | api req =>
    revert hrec
    simp only [ManagerProcess.next, toldOf, published, step, idleTold, reduceCtorEq, and_false,
      if_false, postedBy]
    cases hr : call S.hyper S.serde c.pool req with
    | none =>
      have hnone : postedBy S (.api req) = none := posted_of_panic hr
      have hkeep : idleNext S url st (.api req) = st := by cases st <;> simp [idleNext, hnone]
      rw [hkeep, if_neg (by rw [posted_of_panic hr]; simp)]
      exact fun _ => ⟨hc, rfl, rfl⟩
    | some r =>
      simp only [Option.map_some, Option.getD_some]
      rcases call_cases hr with ⟨u, hu, hpub, hpool⟩ | ⟨hu, hpub, hpool⟩
      · simp only [hpub, hu]
        intro hrec
        have hposts : postedBy S (.api req) = some u := hu
        have hidle := post_idle (d := { c with pool := r.pool }) hc (hnew u hu) hrec hpool rfl
        have hkeep : idleNext S url st (.api req) = if u = url then some .active else st := by
          by_cases huu : u = url
          · have hst : st = none := by
              rw [← hc.state, stateIn_eq_none, view_servers]
              exact huu ▸ hnew u hu
            simp [idleNext, hst, hposts, huu]
          · cases st <;> simp [idleNext, hposts, huu]
        rw [hkeep]
        exact ⟨hidle, by by_cases huu : u = url <;> simp [eventsAt, urlOf, huu], rfl⟩
      · simp only [hpub, hu]
        intro hrec
        have hposts : postedBy S (.api req) = none := hu
        have hkeep : idleNext S url st (.api req) = st := by cases st <;> simp [idleNext, hposts]
        rw [hkeep]
        exact ⟨hc.quiet hrec.managed hpool hc.unpended, rfl, rfl⟩
  | timer =>
    obtain ⟨hidle, htold⟩ := healthRun_idle hbad hc fun _ (hb : _ ∈ c.pool.all) => hb
    have hpooled : (∃ b ∈ c.pool.all, b.server c.pool.heap = serverOf url) ↔ st ≠ none := by
      rw [← hc.state, Ne, stateIn_eq_none, not_not, view_servers, mem_servers]
      rfl
    simp only [hpooled] at hidle htold
    refine ⟨?_, htold.trans ?_, rfl⟩
    · cases st <;> exact hidle
    · cases st <;> simp [idleTold, postedBy]
  | checked j res =>
    obtain ⟨hidle, htold, hnone⟩ := checked_idle (S := S) hc j res
    have hkeep : idleNext S url st (.checked j res) = st := by
      cases st <;> simp [idleNext, postedBy]
    rw [hkeep]
    exact ⟨hidle, htold.trans (by simp [idleTold, postedBy]), hnone⟩

theorem run_idle (hbad : ¬ Checkable S url) (hc : Idle url st c) {es : List Event}
    (hp : (coreSystem S).Always (NewPost S) c es) :
    Idle url ((idleSystem S url).run st es) ((coreSystem S).run c es) ∧
      (coreSystem S).observe (toldOf S url) c es =
        (idleSystem S url).observe (idleTold S url) st es ∧
      (coreSystem S).observe (resultsOn url) c es = [] := by
  induction es generalizing st c with
  | nil => exact ⟨hc, rfl, rfl⟩
  | cons e es ih =>
    obtain ⟨hidle, htold, hnone⟩ := next_idle hbad hc hp.1
    obtain ⟨hrest, htold', hnone'⟩ := ih hidle hp.2
    refine ⟨hrest, ?_, ?_⟩
    · rw [System.observe_cons, System.observe_cons, htold]
      exact congrArg _ htold'
    · rw [System.observe_cons, hnone, List.nil_append]
      exact hnone'

section Abstract

variable {es : List Event}

omit [DecidableEq H] in
theorem idle_down (hes : url ∉ es.filterMap (postedBy S)) :
    (idleSystem S url).run (some .down) es = some .down ∧
      (idleSystem S url).observe (idleTold S url) (some .down) es = [] := by
  induction es with
  | nil => exact ⟨rfl, rfl⟩
  | cons e es ih =>
    have hpost : postedBy S e ≠ some url := fun h => hes (List.mem_filterMap.mpr ⟨e, by simp, h⟩)
    have hstep : (idleSystem S url).next (some .down) e = some .down := by cases e <;> rfl
    have htold : idleTold S url (some .down) e = [] := by simp [idleTold, hpost]
    rw [System.run_cons, System.observe_cons, hstep, htold]
    exact ih fun h => hes (((List.sublist_cons_self e es).filterMap _).subset h)

omit [DecidableEq H] in
theorem idle_active (hes : url ∉ es.filterMap (postedBy S)) :
    (idleSystem S url).run (some .active) es =
        some (if .timer ∈ es then .down else .active) ∧
      (idleSystem S url).observe (idleTold S url) (some .active) es =
        if .timer ∈ es then [.serverStateDown url] else [] := by
  induction es with
  | nil => exact ⟨rfl, rfl⟩
  | cons e es ih =>
    have hpost : postedBy S e ≠ some url := fun h => hes (List.mem_filterMap.mpr ⟨e, by simp, h⟩)
    have hrest : url ∉ es.filterMap (postedBy S) := fun h =>
      hes (((List.sublist_cons_self e es).filterMap _).subset h)
    rw [System.run_cons, System.observe_cons]
    by_cases he : e = .timer
    · subst he
      obtain ⟨hrun, htold⟩ := idle_down (S := S) hrest
      have hstep : (idleSystem S url).next (some .active) .timer = some .down := rfl
      rw [hstep, hrun, htold]
      simp [idleTold, postedBy]
    · have hstep : (idleSystem S url).next (some .active) e = some .active := by
        cases e with
        | timer => exact absurd rfl he
        | api | checked => rfl
      have htold : idleTold S url (some .active) e = [] := by simp [idleTold, hpost, he]
      have hmem : Event.timer ∈ e :: es ↔ Event.timer ∈ es := by simp [Ne.symm he]
      rw [hstep, htold]
      simp only [hmem]
      exact ih hrest

omit [DecidableEq H] in
/-- From before its post on, a timer after the post takes the server down. -/
theorem idle_run (url : Uri) (honce : (es.filterMap (postedBy S)).Nodup) :
    let late := .timer ∈ es.dropWhile fun e => postedBy S e ≠ some url
    (idleSystem S url).run none es =
        (if url ∈ es.filterMap (postedBy S) then some (if late then .down else .active)
          else none) ∧
      (idleSystem S url).observe (idleTold S url) none es =
        (if url ∈ es.filterMap (postedBy S) then [.newServer url] else []) ++
          if late then [.serverStateDown url] else [] := by
  induction es with
  | nil => exact ⟨rfl, rfl⟩
  | cons e es ih =>
    rw [System.run_cons, System.observe_cons]
    by_cases he : postedBy S e = some url
    · rw [List.filterMap_cons, he] at honce
      obtain ⟨hrun, htold⟩ := idle_active (S := S) (List.nodup_cons.mp honce).1
      have hstep : (idleSystem S url).next none e = some .active := if_pos he
      have htimer : e ≠ .timer := by rintro rfl; cases he
      have hmem : url ∈ (e :: es).filterMap (postedBy S) := List.mem_filterMap.mpr ⟨e, by simp, he⟩
      have hdrop : (e :: es).dropWhile (fun e => postedBy S e ≠ some url) = e :: es := by simp [he]
      have htimer : Event.timer ∈ e :: es ↔ Event.timer ∈ es := by simp [Ne.symm htimer]
      have hfirst : idleTold S url none e = [.newServer url] := if_pos he
      rw [hstep, hrun, htold, hfirst]
      simp only [hmem, hdrop, htimer, if_true, List.singleton_append, and_self]
    · have hstep : (idleSystem S url).next none e = none := if_neg he
      have htold : idleTold S url none e = [] := by simp [idleTold, he]
      have hmem : url ∈ (e :: es).filterMap (postedBy S) ↔ url ∈ es.filterMap (postedBy S) := by
        cases hp : postedBy S e with
        | none => simp [hp]
        | some u =>
          have hne : url ≠ u := by rintro rfl; exact he hp
          simp [hp, hne]
      have hdrop : (e :: es).dropWhile (fun e => postedBy S e ≠ some url) =
          es.dropWhile (fun e => postedBy S e ≠ some url) := by simp [he]
      rw [hstep, htold]
      simp only [hmem, hdrop, List.nil_append]
      exact ih (honce.sublist ((List.sublist_cons_self e es).filterMap _))

end Abstract

/-- A server that cannot be checked, in every run that posts no url twice: as soon as a timer
fires after its post, it is down and stays down. That it is new and that it is down are all
that is ever published about it, each once, and no result of a check of it comes. -/
theorem unchecked_goes_down_once (S : Setting Uri H) (h : BackendHeap Uri) (es : List Event)
    (honce : (es.filterMap (postedBy S)).Nodup) (url : Uri) (hbad : ¬ Checkable S url) :
    let c := (coreSystem S).run (initial h) es
    let late := .timer ∈ es.dropWhile fun e => postedBy S e ≠ some url
    stateIn (view c.pool) (serverOf url) =
      (if url ∈ es.filterMap (postedBy S) then some (if late then .down else .active)
        else none) ∧
    eventsAt urlOf url (publications S (initial h) es) =
      (if url ∈ es.filterMap (postedBy S) then [.newServer url] else []) ++
        (if late then [.serverStateDown url] else []) ∧
    (coreSystem S).observe (resultsOn url) (initial h) es = [] := by
  intro c late
  have hstart : Idle url none (initial h : Core Uri H) :=
    ⟨initial_managed h, fun b hb => absurd hb List.not_mem_nil, rfl⟩
  obtain ⟨hidle, htold, hnone⟩ := run_idle hbad hstart (newPost_run (initial_unposted h honce))
  obtain ⟨hrun, hobs⟩ := idle_run url honce
  exact ⟨hidle.state.trans hrun, (toldOf_run (initial h) es).trans (htold.trans hobs), hnone⟩

def starred : Setting String (InnerBackend String) :=
  { knownUrls ["http://a", "*"] with
    hyper := { fromStr := fun t => if t = "*/" then none else some t, display := id, asRef := id } }

def starredRun : List Event :=
  [.timer, post "http://a", post "*", .timer, .checked 0 (.response 200), .timer]

theorem unchecked_goes_down_once_starred :
    let c := (coreSystem starred).run (initial blankHeap) starredRun
    let late := .timer ∈ starredRun.dropWhile fun e => postedBy starred e ≠ some "*"
    stateIn (view c.pool) (serverOf "*") =
      (if "*" ∈ starredRun.filterMap (postedBy starred) then some (if late then .down else .active)
        else none) ∧
    eventsAt urlOf "*" (publications starred (initial blankHeap) starredRun) =
      (if "*" ∈ starredRun.filterMap (postedBy starred) then [.newServer "*"] else []) ++
        (if late then [.serverStateDown "*"] else []) ∧
    (coreSystem starred).observe (resultsOn "*") (initial blankHeap) starredRun = [] :=
  unchecked_goes_down_once starred blankHeap starredRun (by decide) "*"
    (by rintro ⟨target, ht⟩; cases ht)

end UncheckableServers
