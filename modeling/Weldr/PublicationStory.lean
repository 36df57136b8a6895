import Weldr.ReplicaAgreement

/-! What the manager says about one server is always the same story: it is new, it is down,
it is active, it is down, and so on, and the pool says how far the story is. -/
namespace PublicationStory

open BackendPool TransitionSystems PoolSteps PoolServerSet SubscriberProtocol PoolView
  RecordedHashMap HealthMonitor ManagementApi ManagerProcess ManagerRecords ReplicaAgreement

section Stories

variable {Uri : Type}

def urlOf : Publication Uri → Uri
  | .newServer url | .serverStateDown url | .serverStateActive url => url

def announced : Publication Uri → ServerState
  | .newServer _ | .serverStateActive _ => .active
  | .serverStateDown _ => .down

def story (url : Uri) : ℕ → Publication Uri
  | 0 => .newServer url
  | n + 1 => if n % 2 = 0 then .serverStateDown url else .serverStateActive url

/-- The state of a server of which `n` publications were made; before the first it is in no
pool. -/
def standing : ℕ → Option ServerState
  | 0 => none
  | n + 1 => if n % 2 = 0 then some .active else some .down

theorem standing_story (url : Uri) (n : ℕ) : standing (n + 1) = some (announced (story url n)) := by
  cases n with
  | zero => rfl
  | succ n =>
    rcases Nat.mod_two_eq_zero_or_one n with hn | hn
    · have hsucc : (n + 1) % 2 = 1 := by omega
      simp [standing, story, announced, hn, hsucc]
    · have hsucc : (n + 1) % 2 = 0 := by omega
      simp [standing, story, announced, hn, hsucc]

variable [DecidableEq Uri]

def stateIn (v : View Uri) (s : Server Uri) : Option ServerState :=
  (v.find? fun x => x.1 = s).map Prod.snd

/-- A publication tells something new of the view before it. -/
def Due (v : View Uri) : Publication Uri → Prop
  | .newServer url => stateIn v (serverOf url) = none
  | .serverStateDown url => stateIn v (serverOf url) = some .active
  | .serverStateActive url => stateIn v (serverOf url) = some .down

def Stands (c : Uri → ℕ) (v : View Uri) : Prop :=
  ∀ url, stateIn v (serverOf url) = standing (c url)

theorem stateIn_eq_none {v : View Uri} {s : Server Uri} :
    stateIn v s = none ↔ s ∉ v.map Prod.fst := by
  rw [stateIn, Option.map_eq_none_iff, List.find?_eq_none]
  simp only [decide_eq_true_eq, List.mem_map, not_exists, not_and]

theorem stateIn_of_mem {v : View Uri} (hv : (v.map Prod.fst).Nodup) {x : Server Uri × ServerState}
    (hx : x ∈ v) : stateIn v x.1 = some x.2 := by
  cases hf : v.find? fun y => y.1 = x.1 with
  | none => exact absurd (decide_eq_true rfl) (List.find?_eq_none.mp hf x hx)
  | some y =>
    have hy : y.1 = x.1 := by simpa using List.find?_some hf
    have hsame : y = x := List.inj_on_of_nodup_map hv (List.mem_of_find?_eq_some hf) hx hy
    rw [stateIn, hf, hsame]
    rfl

theorem stateIn_setState (s : Server Uri) (st : ServerState) (v : View Uri) (t : Server Uri) :
    stateIn (setState s st v) t = if t = s then (stateIn v t).map fun _ => st else stateIn v t := by
  induction v with
  | nil => simp [stateIn, setState]
  | cons x v ih =>
    by_cases hx : x.1 = t
    · by_cases hs : t = s <;> simp [stateIn, setState, hx, hs]
    · have hkeep : stateIn (x :: v) t = stateIn v t := by simp [stateIn, hx]
      have hset : stateIn (setState s st (x :: v)) t = stateIn (setState s st v) t := by
        have hhead : ¬ (if x.1 = s then (x.1, st) else x).1 = t := by split <;> exact hx
        simp [stateIn, setState, hhead]
      rw [hset, hkeep, ih]

theorem stateIn_applied {v : View Uri} {p : Publication Uri} (hp : Due v p) (t : Server Uri) :
    stateIn (applied v p) t =
      if t = serverOf (urlOf p) then some (announced p) else stateIn v t := by
  cases p with
  | newServer url =>
    have hnew : stateIn v (serverOf url) = none := hp
    rw [applied, if_neg (stateIn_eq_none.mp hnew)]
    by_cases ht : t = serverOf url
    · subst ht
      have hnone : v.find? (fun x => x.1 = serverOf url) = none := Option.map_eq_none_iff.mp hnew
      simp [stateIn, List.find?_append, hnone, urlOf, announced]
    · simp [stateIn, List.find?_append, urlOf, ht, Ne.symm ht]
  | serverStateDown url | serverStateActive url =>
    rw [applied, stateIn_setState]
    by_cases ht : t = serverOf url
    · subst ht
      have hknown : stateIn v (serverOf url) = some _ := hp
      simp [urlOf, announced, hknown]
    · simp [urlOf, ht]

/-- A publication that is due is the next entry of its server's story. -/
theorem due_story {c : Uri → ℕ} {v : View Uri} (hv : Stands c v) {p : Publication Uri}
    (hp : Due v p) : p = story (urlOf p) (c (urlOf p)) := by
  cases p with
  | newServer url =>
    have hc : standing (c url) = none := (hv url).symm.trans hp
    cases hn : c url with
    | zero => simp [urlOf, hn, story]
    | succ n => rw [hn, standing] at hc; split at hc <;> cases hc
  | serverStateDown url =>
    have hc : standing (c url) = some .active := (hv url).symm.trans hp
    cases hn : c url with
    | zero => rw [hn] at hc; cases hc
    | succ n =>
      rw [hn, standing] at hc
      split at hc
      · next heven => simp [urlOf, hn, story, heven]
      · cases hc
  | serverStateActive url =>
    have hc : standing (c url) = some .down := (hv url).symm.trans hp
    cases hn : c url with
    | zero => rw [hn] at hc; cases hc
    | succ n =>
      rw [hn, standing] at hc
      split at hc
      · cases hc
      · next hodd => simp [urlOf, hn, story, hodd]

abbrev storySystem (Uri : Type) [DecidableEq Uri] : System (Uri → ℕ) (Publication Uri) :=
  scriptSystem urlOf story

theorem stands_next {c : Uri → ℕ} {v : View Uri} (hv : Stands c v) {p : Publication Uri}
    (hp : Due v p) :
    (storySystem Uri).Enabled c p ∧ Stands ((storySystem Uri).next c p) (applied v p) := by
  have hstory := due_story hv hp
  refine ⟨hstory, ?_⟩
  intro url
  rw [stateIn_applied hp]
  by_cases hu : url = urlOf p
  · subst hu
    have hcount : (storySystem Uri).next c p (urlOf p) = c (urlOf p) + 1 :=
      Function.update_self ..
    rw [if_pos rfl, hcount, standing_story (urlOf p), ← hstory]
  · have hcount : (storySystem Uri).next c p url = c url := Function.update_of_ne hu ..
    have hserver : serverOf url ≠ serverOf (urlOf p) := fun h => hu (congrArg Server.url h)
    rw [if_neg hserver, hcount]
    exact hv url

end Stories

section Manager

variable {Uri H : Type} [DecidableEq Uri]

theorem stateIn_view {p : Pool Uri} (hp : Distinct p) {b : Backend}
    (hb : b ∈ p.inner.backends) :
    stateIn (view p) (b.server p.heap) = some (b.read p.heap).state := by
  have hnodup : ((view p).map Prod.fst).Nodup := by
    rw [view_servers]
    exact hp.servers
  exact stateIn_of_mem hnodup (List.mem_map_of_mem (f := fun b : Backend =>
    (b.server p.heap, (b.read p.heap).state)) hb)

def Tells (c : Core Uri H) (r : Core Uri H × Log Uri) : Prop :=
  ∀ k, Stands k (view c.pool) → (storySystem Uri).Valid k (r.2.map Prod.fst) ∧
    Stands ((storySystem Uri).run k (r.2.map Prod.fst)) (view r.1.pool)

variable {c d : Core Uri H}

theorem tells_quiet (hp : d.pool = c.pool) : Tells c (d, []) := by
  intro k hk
  refine ⟨trivial, ?_⟩
  simp only [hp]
  exact hk

theorem tells_one {p : Publication Uri} (hr : Recorded c (d, [(p, d.pool)]))
    (hp : Due (view c.pool) p) : Tells c (d, [(p, d.pool)]) := by
  intro k hk
  obtain ⟨henabled, hstands⟩ := stands_next hk hp
  refine ⟨⟨henabled, trivial⟩, ?_⟩
  have hview : view d.pool = applied (view c.pool) p := hr.records.1
  simp only [hview]
  exact hstands

theorem Tells.trans {r q : Core Uri H × Log Uri} (h : Tells c r) (hq : Tells r.1 q) :
    Tells c (q.1, r.2 ++ q.2) := by
  intro k hk
  obtain ⟨hv, hs⟩ := h k hk
  obtain ⟨hv', hs'⟩ := hq _ hs
  simp only [List.map_append]
  rw [System.run_append]
  exact ⟨(System.always_append _ _ _ _ _).mpr ⟨hv, hv'⟩, hs'⟩

theorem state_eq_of_ne {st st' other : ServerState} (h : st ≠ other) (h' : st' ≠ other) :
    st = st' := by
  cases st <;> cases st' <;> cases other <;> first | rfl | contradiction

theorem due_mark (hc : Managed c) {b : Backend} (hb : b ∈ c.pool.inner.backends)
    (st : ServerState) (hst : (b.read c.pool.heap).state ≠ st) :
    Due (view c.pool) (markPublication (b.server c.pool.heap).url st) := by
  have hread := stateIn_view hc.distinct hb
  rw [← serverOf_pooled hc hb] at hread
  cases st with
  | active => rwa [state_eq_of_ne hst (by decide : ServerState.down ≠ .active)] at hread
  | down => rwa [state_eq_of_ne hst (by decide : ServerState.active ≠ .down)] at hread

theorem checkBackend_tells (S : Setting Uri H) (hc : Managed c) {b : Backend}
    (hb : b ∈ c.pool.inner.backends) : Tells c (checkBackend S c b) := by
  have hrec := checkBackend_recorded S hc hb
  revert hrec
  unfold checkBackend checkStart
  cases S.hyper.fromStr (S.hyper.display (b.server c.pool.heap).url ++ S.config.uriPath) with
  | some url => exact fun _ => tells_quiet rfl
  | none =>
    by_cases ha : b.isActive c.pool.heap = true
    · simp only [ha, if_true]
      intro hrec
      have hs : b.server (b.markDown c.pool.heap) = b.server c.pool.heap :=
        server_markDown b b c.pool.heap
      refine tells_one (d := { c with pool := { c.pool with heap := b.markDown c.pool.heap } })
        hrec ?_
      rw [hs]
      exact due_mark hc hb .down (by rw [of_decide_eq_true ha]; simp)
    · simp only [ha]
      exact fun _ => tells_quiet rfl

theorem healthRun_tells (S : Setting Uri H) (hc : Managed c) {bs : List Backend}
    (hbs : ∀ b ∈ bs, b ∈ c.pool.inner.backends) : Tells c (healthRun S c bs) := by
  induction bs generalizing c with
  | nil => exact tells_quiet rfl
  | cons b bs ih =>
    have hone := checkBackend_recorded S hc (hbs b (by simp))
    refine (checkBackend_tells S hc (hbs b (by simp))).trans (ih hone.managed ?_)
    intro a ha
    exact hone.backends.subset (hbs a (by simp [ha]))

variable [DecidableEq H] {hash : InnerBackend Uri → H} {config : HealthCheck}
  {m : Monitor Uri H} {b : Backend} {res : CheckResult} {p : Publication Uri}

theorem checkDone_eq : checkDone hash config m b res =
    if res.passed then checkPassed hash config m b else checkFailed hash config m b := by
  cases res with
  | response status => rfl
  | error => rfl

/-- A check decides about one mark, never flips a backend that has it, and publishes a flip. -/
theorem checkDone_decision (hash : InnerBackend Uri → H) (config : HealthCheck)
    (m : Monitor Uri H) (b : Backend) (res : CheckResult) : ∃ st f,
    ((b.read m.heap).state = st → ∀ s, (f s : HealthState × Bool).2 = false) ∧
      (checkDone hash config m b res).2 = if (withBackend hash m.heap m.health b f).2 then
        some (markPublication (b.server m.heap).url st) else none := by
  rw [checkDone_eq]
  by_cases hres : res.passed = true
  · refine ⟨.active, passedEntry (b.isActive m.heap) config.passes, ?_, ?_⟩
    · intro hst s
      have hactive : b.isActive m.heap = true := decide_eq_true hst
      rw [hactive]
      cases s <;> rfl
    · simp only [if_pos hres, checkPassed, shouldMarkActive, server_markActive]
      split <;> rfl
  · refine ⟨.down, failedEntry (b.isDown m.heap) config.failures, ?_, ?_⟩
    · intro hst s
      have hdown : b.isDown m.heap = true := decide_eq_true hst
      rw [hdown]
      cases s <;> rfl
    · simp only [if_neg hres, checkFailed, shouldMarkDown, server_markDown]
      split <;> rfl

theorem checkDone_published (h : (checkDone hash config m b res).2 = some p) :
    ∃ st, (b.read m.heap).state ≠ st ∧ p = markPublication (b.server m.heap).url st := by
  obtain ⟨st, f, hf, hdecision⟩ := checkDone_decision hash config m b res
  rw [hdecision] at h
  split at h
  · next hflip =>
    refine ⟨st, fun hst => ?_, (Option.some.inj h).symm⟩
    rw [withBackend, withEntry_result, hf hst] at hflip
    cases hflip
  · cases h

theorem urlOf_checkDone (h : (checkDone hash config m b res).2 = some p) :
    urlOf p = (b.server m.heap).url := by
  obtain ⟨st, -, rfl⟩ := checkDone_published h
  cases st <;> rfl

theorem heap_checkDone (h : (checkDone hash config m b res).2 = none) :
    (checkDone hash config m b res).1.heap = m.heap := by
  rcases checkDone_cases hash config m b res with ⟨hheap, -⟩ | ⟨-, hsome⟩ | ⟨-, hsome⟩
  · exact hheap
  · rw [h] at hsome; cases hsome
  · rw [h] at hsome; cases hsome

theorem due_checkDone (S : Setting Uri H) (hc : Managed c) (hb : b ∈ c.pool.inner.backends)
    (h : (checkDone S.hash S.config { heap := c.pool.heap, health := c.health } b res).2 =
      some p) : Due (view c.pool) p := by
  obtain ⟨st, hst, rfl⟩ := checkDone_published h
  exact due_mark hc hb st hst

theorem checked_tells (S : Setting Uri H) (hc : Managed c) (k : ℕ) (res : CheckResult) :
    Tells c (checked S c k res) := by
  have hrec := checked_recorded S hc k res
  revert hrec
  unfold checked
  cases hk : c.pending[k]? with
  | none => exact fun _ => tells_quiet rfl
  | some b =>
    have hb : b ∈ c.pool.inner.backends := hc.pending b (List.mem_of_getElem? hk)
    cases hp : (checkDone S.hash S.config { heap := c.pool.heap, health := c.health } b res).2 with
    | none =>
      simp only [hp, heap_checkDone hp]
      exact fun _ => tells_quiet rfl
    | some p =>
      simp only [hp]
      intro hrec
      exact tells_one hrec (due_checkDone S hc hb hp)

def NewPost (S : Setting Uri H) (c : Core Uri H) (e : Event) : Prop :=
  ∀ u ∈ postedBy S e, serverOf u ∉ c.pool.servers

omit [DecidableEq Uri] [DecidableEq H] in
theorem freshPost_of_new {S : Setting Uri H} {e : Event} (h : NewPost S c e) :
    FreshPost S c e := by
  intro u hu b hb hs
  exact absurd (mem_servers.mpr ⟨b, hb, hs⟩) (h u hu)

theorem next_tells {S : Setting Uri H} (hc : Managed c) {e : Event} (hnew : NewPost S c e) :
    Tells c (next S c e, published S c e) := by
  have hrec := next_recorded hc (freshPost_of_new hnew)
  cases e with
  | api req =>
    revert hrec
    simp only [next, published, step]
    cases hr : call S.hyper S.serde c.pool req with
    | none => exact fun _ => tells_quiet rfl
    | some r =>
      simp only [Option.map_some, Option.getD_some]
      rcases call_cases hr with ⟨u, hu, hpub, hpool⟩ | ⟨-, hpub, hpool⟩
      · simp only [hpub]
        intro hrec
        refine tells_one (d := { c with pool := r.pool }) hrec ?_
        rw [Due, stateIn_eq_none, view_servers]
        exact hnew u hu
      · simp only [hpub]
        exact fun _ => tells_quiet hpool
  | timer => exact healthRun_tells S hc fun _ hb => hb
  | checked k res => exact checked_tells S hc k res

structure Unposted (S : Setting Uri H) (c : Core Uri H) (es : List Event) : Prop where
  managed : Managed c
  once : (es.filterMap (postedBy S)).Nodup
  absent : ∀ u ∈ es.filterMap (postedBy S), serverOf u ∉ c.pool.servers

omit [DecidableEq Uri] [DecidableEq H] in
theorem initial_unposted {S : Setting Uri H} (h : BackendHeap Uri) {es : List Event}
    (honce : (es.filterMap (postedBy S)).Nodup) : Unposted S (initial h) es :=
  ⟨initial_managed h, honce, by simp [initial, Pool.default, Pool.servers]⟩

theorem Unposted.next {S : Setting Uri H} {e : Event} {es : List Event}
    (hc : Unposted S c (e :: es)) : NewPost S c e ∧ Unposted S (next S c e) es := by
  have hone : NewPost S c e := fun u hu =>
    hc.absent u (List.mem_filterMap.mpr ⟨e, by simp, hu⟩)
  have hlater := ((List.sublist_cons_self e es).filterMap (postedBy S))
  refine ⟨hone, (next_recorded hc.managed (freshPost_of_new hone)).managed,
    hc.once.sublist hlater, ?_⟩
  intro u hu hpooled
  have hservers := (ManagerPool.mem_servers_posted (S := S) hc.managed.distinct.wellFormed [e]
    (serverOf u)).2
  rcases hservers.mp hpooled with hold | ⟨v, hv, he⟩
  · exact hc.absent u (hlater.subset hu) hold
  · obtain rfl : u = v := congrArg Server.url he
    have hpost : postedBy S e = some u := by
      cases hp : postedBy S e with
      | none => simp [hp] at hv
      | some w => simpa [hp, eq_comm] using hv
    have honce := hc.once
    rw [List.filterMap_cons, hpost] at honce
    exact (List.nodup_cons.mp honce).1 hu

theorem newPost_run {S : Setting Uri H} {es : List Event} (hc : Unposted S c es) :
    (coreSystem S).Always (NewPost S) c es := by
  induction es generalizing c with
  | nil => trivial
  | cons e es ih =>
    obtain ⟨hone, hrest⟩ := hc.next
    exact ⟨hone, ih hrest⟩

theorem run_tells (S : Setting Uri H) (h : BackendHeap Uri) {es : List Event}
    (honce : (es.filterMap (postedBy S)).Nodup) :
    let ps := publications S (initial h) es
    (storySystem Uri).Valid (fun _ => 0) ps ∧
      Stands ((storySystem Uri).run (fun _ => 0) ps)
        (view ((coreSystem S).run (initial h) es).pool) := by
  intro ps
  have hps : ps = (coreSystem S).observe (fun c e => (published S c e).map Prod.fst)
      (initial h) es := (coreSystem S).map_observe _ _ _ _
  have hposts := newPost_run (initial_unposted h honce)
  have hsteps := TransitionSystems.simulation_run (T := coreSystem S) (U := storySystem Uri)
    (R := fun k c => Managed c ∧ Stands k (view c.pool)) (P := NewPost S)
    (f := fun c e => (published S c e).map Prod.fst)
    (fun k c e hc hnew =>
      have htells := next_tells hc.1 hnew k hc.2
      ⟨htells.1, (next_recorded hc.1 (freshPost_of_new hnew)).managed, htells.2⟩)
    (u := fun _ => 0) ⟨initial_managed h, fun _ => rfl⟩ hposts
  rw [hps]
  exact ⟨hsteps.1, hsteps.2.2⟩

/-- What the manager publishes about one server, in every run that posts no url twice and
whatever the order of timers, late check results and posts: that it is new, exactly when it
is posted, then that it is down and that it is active by turns, and the pool is where the
story ends. -/
theorem publications_follow_story (S : Setting Uri H) (h : BackendHeap Uri) (es : List Event)
    (honce : (es.filterMap (postedBy S)).Nodup) (url : Uri) :
    let ps := publications S (initial h) es
    let c := (coreSystem S).run (initial h) es
    ∃ n, eventsAt urlOf url ps = (List.range n).map (story url) ∧
      stateIn (view c.pool) (serverOf url) = standing n ∧
      (n = 0 ↔ url ∉ es.filterMap (postedBy S)) := by
  intro ps c
  obtain ⟨hvalid, hstands⟩ := run_tells S h honce
  have hevents := eventsAt_valid hvalid url
  have hstanding := hstands url
  rw [run_count, Nat.zero_add] at hstanding
  rw [← List.range_eq_range'] at hevents
  refine ⟨(eventsAt urlOf url ps).length, hevents, hstanding, ?_⟩
  rw [← ManagerPool.serverOf_mem_initial h, ← view_servers, ← stateIn_eq_none, hstanding]
  cases (eventsAt urlOf url ps).length with
  | zero => simp [standing]
  | succ n => rw [standing_story url]; simp

def recoveringRun : List Event :=
  failingRun ++ [.timer, .timer, .timer, .checked 2 .error, .checked 1 (.response 200),
    .checked 0 (.response 204)]

theorem publications_follow_story_recovering :
    let S := knownUrls ["http://a"]
    ∃ n, eventsAt urlOf "http://a" (publications S (initial blankHeap) recoveringRun) =
        (List.range n).map (story "http://a") ∧
      stateIn (view ((coreSystem S).run (initial blankHeap) recoveringRun).pool)
        (serverOf "http://a") = standing n ∧
      (n = 0 ↔ "http://a" ∉ recoveringRun.filterMap (postedBy S)) :=
  publications_follow_story (knownUrls ["http://a"]) blankHeap recoveringRun (by decide) "http://a"

example : publications (knownUrls ["http://a"]) (initial blankHeap) recoveringRun =
    [.newServer "http://a", .serverStateDown "http://a", .serverStateActive "http://a"] := by decide

end Manager

end PublicationStory
