import Weldr.SubscriberLines

/-! The accounts of the publisher: the counter of every entry is the number of requests of
its subscriber that wait for an answer, an id is given out once, and an entry that was
removed stays removed. Ids wrap at `2 ^ 64`, so a run makes fewer subscriptions. -/
namespace PublisherAccounting

open TransitionSystems RequestTargets SubscriberProtocol Publisher SubscriberLines PublisherDelivery

variable {Client Uri : Type}

def isSubscription : Event Client Uri → Bool
  | .subscribe (some _) => true
  | _ => false

def assigned (s : State Client) : Event Client Uri → List ℕ
  | .subscribe (some _) => [s.nextId]
  | _ => []

def answered (id : ℕ) (s : State Client) : Event Client Uri → List Answer
  | .complete k answer =>
    match s.spawned[k]? with
    | none => []
    | some r => if r.idx = id then [answer] else []
  | _ => []

def Removes (id : ℕ) (s : State Client) : Event Client Uri → Prop
  | .complete k .err => ∃ r, s.spawned[k]? = some r ∧ r.idx = id
  | .drop i => i = id ∧ i ∈ s.subscriptions
  | _ => False

/-- The counter of a line is the number of its unanswered requests and fits the window. -/
def Balanced (l : Line Client) : Prop :=
  ∀ h, l.handle = some h → h.requestsInFlight = l.unanswered ∧ l.unanswered ≤ 5

theorem balanced_publish {l : Line Client} (hl : Balanced l) (r : Request) :
    Balanced (l.publish r) := by
  unfold Line.publish
  cases hh : l.handle with
  | none => exact hl
  | some h =>
    obtain ⟨he, -⟩ := hl h hh
    by_cases hw : h.requestsInFlight < 5
    · simp only [hw, if_true]
      rintro _ ⟨⟩
      exact ⟨by simp [he], by simp only; omega⟩
    · simpa only [hw, if_false] using hl

theorem balanced_complete {l : Line Client} (hl : Balanced l) (hpos : 0 < l.unanswered)
    (answer : Answer) : Balanced (l.complete answer) := by
  cases answer with
  | ok =>
    intro h hh
    simp only [Line.complete, Line.callback, Option.map_eq_some_iff] at hh
    obtain ⟨h, hh, rfl⟩ := hh
    obtain ⟨he, hle⟩ := hl h hh
    simp only [Line.complete, Line.callback]
    omega
  | err => intro h hh; cases hh

/-- Everything in the publisher is about an id below `n`, the next one to give out. -/
structure Known (n : ℕ) (s : State Client) : Prop where
  nextId : s.nextId = n
  entries : ∀ id ∈ s.subscribers, id < n
  objects : ∀ id ∈ s.subscriptions, id < n
  waiting : ∀ r ∈ s.spawned, r.idx < n

theorem known_publishTo {n : ℕ} {s : State Client} (hs : Known n s) (request : Request)
    (idx : ℕ) : Known n (s.publishTo request idx) := by
  unfold State.publishTo
  cases hl : s.subscribers.lookup idx with
  | none => exact hs
  | some h =>
    have hidx : idx < n := hs.entries idx (AList.lookup_isSome.mp (by simp [hl]))
    by_cases hw : h.requestsInFlight < 5
    · simp only [hw, if_true]
      refine ⟨hs.nextId, ?_, hs.objects, ?_⟩
      · intro id hid
        rcases (AList.mem_insert _).mp hid with rfl | hid
        · exact hidx
        · exact hs.entries id hid
      · intro r hr
        rcases List.mem_append.mp hr with hr | hr
        · exact hs.waiting r hr
        · rw [List.mem_singleton.mp hr]; exact hidx
    · simpa only [hw, if_false] using hs

theorem known_publish {n : ℕ} {s : State Client} (hs : Known n s) (request : Request)
    (order : List ℕ) : Known n (s.publish request order) := by
  induction order generalizing s with
  | nil => exact hs
  | cons idx order ih => exact ih (known_publishTo hs request idx)

theorem known_callback {n : ℕ} {s : State Client} (hs : Known n s) {idx : ℕ} (hidx : idx < n)
    (answer : Answer) : Known n (s.callback idx answer) := by
  cases answer with
  | ok =>
    simp only [State.callback]
    cases hl : s.subscribers.lookup idx with
    | none => exact hs
    | some h =>
      refine ⟨hs.nextId, ?_, hs.objects, hs.waiting⟩
      intro id hid
      rcases (AList.mem_insert _).mp hid with rfl | hid
      · exact hidx
      · exact hs.entries id hid
  | err =>
    exact ⟨hs.nextId, fun id hid => hs.entries id (AList.mem_erase.mp hid).2, hs.objects,
      hs.waiting⟩

theorem known_drop {n : ℕ} {s : State Client} (hs : Known n s) (i : ℕ) :
    Known n (s.dropSubscription i) := by
  unfold State.dropSubscription
  split
  · exact ⟨hs.nextId, fun id hid => hs.entries id (AList.mem_erase.mp hid).2,
      fun id hid => hs.objects id (List.mem_of_mem_erase hid), hs.waiting⟩
  · exact hs

/-- Only a subscription moves the next id, and it takes the one that was next. -/
theorem known_next (hyper : UriText Uri) {n : ℕ} {s : State Client} (hs : Known n s)
    {e : Event Client Uri} (hn : isSubscription e = true → n + 1 < 2 ^ 64) :
    Known (if isSubscription e then n + 1 else n) (next hyper s e) := by
  cases e with
  | subscribe params =>
    cases params with
    | none => exact hs
    | some client =>
      have hwrap : (s.nextId + 1) % 2 ^ 64 = n + 1 := by
        rw [hs.nextId, Nat.mod_eq_of_lt (hn rfl)]
      refine ⟨hwrap, ?_, ?_, fun r hr => Nat.lt_succ_of_lt (hs.waiting r hr)⟩
      · intro id hid
        rcases (AList.mem_insert _).mp hid with rfl | hid
        · rw [hs.nextId]; exact Nat.lt_succ_self n
        · exact Nat.lt_succ_of_lt (hs.entries id hid)
      · intro id hid
        rcases List.mem_append.mp hid with hid | hid
        · exact Nat.lt_succ_of_lt (hs.objects id hid)
        · rw [List.mem_singleton.mp hid, hs.nextId]; exact Nat.lt_succ_self n
  | publish p order =>
    simp only [next, State.publication_eq]
    exact known_publish hs _ order
  | complete k answer =>
    simp only [next, State.complete]
    cases hr : s.spawned[k]? with
    | none => exact hs
    | some r =>
      refine known_callback ?_ (hs.waiting r (List.mem_of_getElem? hr)) answer
      exact ⟨hs.nextId, hs.entries, hs.objects,
        fun r hr => hs.waiting r (List.mem_of_mem_eraseIdx hr)⟩
  | drop i => exact known_drop hs i

theorem unanswered_pos {s : State Client} {k : ℕ} {r : Sent Client}
    (hr : s.spawned[k]? = some r) : 0 < (line r.idx s).unanswered :=
  List.countP_pos_iff.mpr ⟨r, List.mem_of_getElem? hr, by simp⟩

theorem next_balanced (hyper : UriText Uri) {n : ℕ} {s : State Client} (hs : Known n s)
    {e : Event Client Uri} (he : Enabled s e) {id : ℕ} (hb : Balanced (line id s)) :
    Balanced (line id (next hyper s e)) := by
  rw [line_next hyper id he]
  cases e with
  | subscribe params =>
    cases params with
    | none => exact hb
    | some client =>
      simp only [lineEvent]
      split
      · -- no request waits for an answer under an id that was not given out
        rename_i hid
        rintro _ ⟨⟩
        have hz : (line id s).unanswered = 0 := by
          refine List.countP_eq_zero.mpr fun r hr => ?_
          have := hs.waiting r hr
          have := hs.nextId
          simp only [decide_eq_true_eq]
          omega
        simp [Line.next, Line.subscribe, hz]
      · exact hb
  | publish p order => exact balanced_publish hb _
  | complete k answer =>
    simp only [lineEvent]
    cases hr : s.spawned[k]? with
    | none => exact hb
    | some r =>
      simp only
      split
      · rename_i hid
        exact balanced_complete hb (hid ▸ unanswered_pos hr) answer
      · exact hb
  | drop i =>
    simp only [lineEvent]
    split
    · rintro _ ⟨⟩
    · exact hb

theorem assigned_next (s : State Client) (e : Event Client Uri) :
    assigned s e = if isSubscription e = true then [s.nextId] else [] := by
  cases e with
  | subscribe params => cases params <;> rfl
  | publish | complete | drop => rfl

theorem run_known (hyper : UriText Uri) {n : ℕ} {s : State Client} (hs : Known n s)
    (hb : ∀ id, Balanced (line id s)) {es : List (Event Client Uri)}
    (hv : (publisherSystem Client hyper).Valid s es)
    (hn : n + es.countP isSubscription < 2 ^ 64) :
    Known (n + es.countP isSubscription) ((publisherSystem Client hyper).run s es) ∧
    (∀ id, Balanced (line id ((publisherSystem Client hyper).run s es))) ∧
    (publisherSystem Client hyper).observe assigned s es =
      List.range' n (es.countP isSubscription) := by
  induction es generalizing n s with
  | nil => exact ⟨hs, hb, rfl⟩
  | cons e es ih =>
    rw [List.countP_cons] at hn ⊢
    have hstep := known_next hyper hs (e := e) (by intro h; simp only [h, if_true] at hn; omega)
    have hbal : ∀ id, Balanced (line id (next hyper s e)) :=
      fun id => next_balanced hyper hs hv.1 (hb id)
    by_cases hsub : isSubscription e = true
    · rw [if_pos hsub] at hstep hn
      obtain ⟨hk, hb', ho⟩ := ih hstep hbal hv.2 (by omega)
      rw [if_pos hsub]
      refine ⟨by rw [Nat.add_comm _ 1, ← Nat.add_assoc]; exact hk, hb', ?_⟩
      rw [System.observe_cons, assigned_next, if_pos hsub, hs.nextId, List.range'_succ]
      exact congrArg (n :: ·) ho
    · rw [if_neg hsub] at hstep hn
      obtain ⟨hk, hb', ho⟩ := ih hstep hbal hv.2 (by omega)
      rw [if_neg hsub]
      refine ⟨hk, hb', ?_⟩
      rw [System.observe_cons, assigned_next, if_neg hsub]
      exact ho

/-- At a publication, a subscriber in the map has left fewer than five requests unanswered. -/
def FewUnanswered (id : ℕ) (s : State Client) : Event Client Uri → Prop
  | .publish _ _ => id ∈ s.subscribers → s.spawned.countP (fun r => r.idx = id) < 5
  | _ => True

theorem windowOpen_iff {id : ℕ} {s : State Client} (hb : Balanced (line id s))
    (e : Event Client Uri) : WindowOpen id s e ↔ FewUnanswered id s e := by
  cases e with
  | publish p order =>
    simp only [WindowOpen, FewUnanswered]
    constructor
    · intro hw hin
      obtain ⟨h, hh⟩ := Option.isSome_iff_exists.mp (AList.lookup_isSome.mpr hin)
      have hcount : h.requestsInFlight = (line id s).unanswered := (hb h hh).1
      have hlt := hw h hh
      rw [hcount] at hlt
      exact Int.ofNat_lt.mp hlt
    · intro hw h hh
      have hin : id ∈ s.subscribers :=
        AList.lookup_isSome.mp (Option.isSome_iff_exists.mpr ⟨h, hh⟩)
      have hcount : h.requestsInFlight = (line id s).unanswered := (hb h hh).1
      rw [hcount]
      exact Int.ofNat_lt.mpr (hw hin)
  | subscribe | complete | drop => exact Iff.rfl

theorem windows_open_iff (hyper : UriText Uri) {n : ℕ} {s : State Client} (hs : Known n s)
    (id : ℕ) (hb : Balanced (line id s)) {es : List (Event Client Uri)}
    (hv : (publisherSystem Client hyper).Valid s es)
    (hn : n + es.countP isSubscription < 2 ^ 64) :
    (publisherSystem Client hyper).Always (WindowOpen id) s es ↔
      (publisherSystem Client hyper).Always (FewUnanswered id) s es := by
  induction es generalizing n s with
  | nil => exact Iff.rfl
  | cons e es ih =>
    rw [List.countP_cons] at hn
    have hstep := known_next hyper hs (e := e) (by intro h; simp only [h, if_true] at hn; omega)
    have hleft : (if isSubscription e then n + 1 else n) + es.countP isSubscription < 2 ^ 64 := by
      cases hsub : isSubscription e <;> simp [hsub] at hn ⊢ <;> omega
    exact and_congr (windowOpen_iff hb e) (ih hstep (next_balanced hyper hs hv.1 hb) hv.2 hleft)

theorem answered_next (hyper : UriText Uri) (id : ℕ) {s : State Client} {e : Event Client Uri}
    (he : Enabled s e) :
    (line id (next hyper s e)).sent.length + (line id s).unanswered =
      (line id (next hyper s e)).unanswered + (line id s).sent.length +
        (answered id s e).length := by
  rw [line_next hyper id he]
  cases e with
  | subscribe params =>
    cases params with
    | none => simp [lineEvent, Line.next, answered]; omega
    | some client =>
      simp only [lineEvent, answered]
      split <;> simp [Line.next, Line.subscribe] <;> omega
  | publish p order =>
    simp only [lineEvent, Line.next, Line.publish, answered]
    split
    · simp; omega
    · split <;> simp <;> omega
  | complete k answer =>
    simp only [lineEvent, answered]
    cases hr : s.spawned[k]? with
    | none => simp [Line.next]; omega
    | some r =>
      by_cases hid : r.idx = id
      · subst id
        have := unanswered_pos hr
        cases answer <;> simp [Line.next, Line.complete, Line.callback] <;> omega
      · simp [hid, Line.next]; omega
  | drop i =>
    simp only [lineEvent, answered]
    split <;> simp [Line.next, Line.drop] <;> omega

theorem answered_run (hyper : UriText Uri) (id : ℕ) {s : State Client}
    {es : List (Event Client Uri)} (hv : (publisherSystem Client hyper).Valid s es) :
    (line id ((publisherSystem Client hyper).run s es)).sent.length + (line id s).unanswered =
      (line id ((publisherSystem Client hyper).run s es)).unanswered +
        (line id s).sent.length +
        ((publisherSystem Client hyper).observe (answered id) s es).length := by
  induction es generalizing s with
  | nil => simp; omega
  | cons e es ih =>
    have hstep := answered_next hyper id hv.1
    have hrest := ih hv.2
    have hnext : (publisherSystem Client hyper).next s e = next hyper s e := rfl
    simp only [System.run_cons, System.observe_cons, List.length_append, hnext] at hrest ⊢
    omega

theorem removes_next (hyper : UriText Uri) {n id : ℕ} {s : State Client} (hs : Known n s)
    {e : Event Client Uri} (hr : Removes id s e) :
    id < n ∧ id ∉ (next hyper s e).subscribers ∧
      sentTo id (next hyper s e) = sentTo id s ∧ isSubscription e = false := by
  cases e with
  | complete k answer =>
    cases answer with
    | ok => cases hr
    | err =>
      obtain ⟨r, hk, rfl⟩ := hr
      refine ⟨hs.waiting r (List.mem_of_getElem? hk), ?_, ?_, rfl⟩
      · simp [next, State.complete, hk, State.callback]
      · simp [next, State.complete, hk, State.callback, sentTo]
  | drop i =>
    obtain ⟨rfl, hi⟩ := hr
    refine ⟨hs.objects i hi, ?_, ?_, rfl⟩
    · simp [next, State.dropSubscription, hi]
    · simp [next, State.dropSubscription, hi, sentTo]
  | subscribe | publish => cases hr

theorem gone_next (hyper : UriText Uri) {n id : ℕ} {s : State Client} (hs : Known n s)
    (hid : id < n) (hout : id ∉ s.subscribers) {e : Event Client Uri} (he : Enabled s e) :
    id ∉ (next hyper s e).subscribers ∧ sentTo id (next hyper s e) = sentTo id s := by
  have hnone : s.subscribers.lookup id = none := AList.lookup_eq_none.mpr hout
  have hfresh : ∀ client, lineEvent hyper id s e ≠ .subscribe client := by
    intro client h
    cases e with
    | subscribe params =>
      cases params with
      | none => cases h
      | some c =>
        have := hs.nextId
        simp [lineEvent, show s.nextId ≠ id by omega] at h
    | complete k answer => simp only [lineEvent] at h; split at h <;> (try split at h) <;> cases h
    | drop i => simp only [lineEvent] at h; split at h <;> cases h
    | publish => cases h
  have hline : (line id (next hyper s e)).handle = none := by
    rw [line_next hyper id he]
    cases hev : lineEvent hyper id s e with
    | subscribe client => exact absurd hev (hfresh client)
    | publish r => simp [Line.next, Line.publish, line, hnone]
    | complete answer =>
      cases answer <;> simp [Line.next, Line.complete, Line.callback, line, hnone]
    | drop => rfl
    | other => exact hnone
  refine ⟨AList.lookup_eq_none.mp hline, ?_⟩
  rw [sentTo_next hyper id he]
  cases e <;> simp [sentNow, hnone]

/-- No request is sent to an id that is out of the map, and it does not come back. -/
theorem gone_run (hyper : UriText Uri) {n id : ℕ} {s : State Client} (hs : Known n s)
    (hid : id < n) (hout : id ∉ s.subscribers) {es : List (Event Client Uri)}
    (hv : (publisherSystem Client hyper).Valid s es)
    (hn : n + es.countP isSubscription < 2 ^ 64) :
    sentTo id ((publisherSystem Client hyper).run s es) = sentTo id s := by
  induction es generalizing n s with
  | nil => rfl
  | cons e es ih =>
    rw [List.countP_cons] at hn
    obtain ⟨hout', hsent⟩ := gone_next hyper hs hid hout hv.1
    have hstep := known_next hyper hs (e := e) (by intro h; simp only [h, if_true] at hn; omega)
    rw [← hsent]
    refine ih hstep (by split <;> omega) hout' hv.2 ?_
    split at hn <;> simp_all
    omega

theorem complete_frame {s : State Client} {k : ℕ} {r : Sent Client}
    (hr : s.spawned[k]? = some r) (answer : Answer) {id : ℕ} (hid : id ≠ r.idx) :
    (s.complete k answer).subscribers.lookup id = s.subscribers.lookup id := by
  have hline : line id (s.complete k answer) = line id s := by
    rw [line_complete id hr, if_neg (Ne.symm hid)]
  exact congrArg Line.handle hline

theorem drop_frame (s : State Client) {i id : ℕ} (hid : id ≠ i) :
    (s.dropSubscription i).subscribers.lookup id = s.subscribers.lookup id := by
  by_cases hi : i ∈ s.subscriptions
  · have hline := congrArg Line.handle (line_drop id hi)
    rwa [if_neg (Ne.symm hid)] at hline
  · simp [State.dropSubscription, hi]

theorem initial_known : Known 0 (initial : State Client) := by
  constructor <;> simp [initial]

theorem initial_balanced (id : ℕ) : Balanced (line id (initial : State Client)) := by
  intro h hh
  cases hh

/-- From the start on, a window is found open by every publication if and only if each of them
finds fewer than five requests of the subscriber unanswered. -/
theorem always_open_iff_fewUnanswered (hyper : UriText Uri) (es : List (Event Client Uri))
    (hv : (publisherSystem Client hyper).Valid initial es)
    (hn : es.countP isSubscription < 2 ^ 64) (id : ℕ) :
    (publisherSystem Client hyper).Always (WindowOpen id) initial es ↔
      (publisherSystem Client hyper).Always (FewUnanswered id) initial es :=
  windows_open_iff hyper initial_known id (initial_balanced id) hv (by omega)

/-- The accounts of a run with fewer than `2 ^ 64` subscriptions: every entry counts the
requests sent to it that were not answered, between 0 and 5 of them; no id is given out
twice; a completion or a drop leaves all other entries alone; and what was removed by an
`Err` or a drop is sent nothing more. -/
theorem in_flight_accounting (hyper : UriText Uri) (es : List (Event Client Uri))
    (hv : (publisherSystem Client hyper).Valid initial es)
    (hn : es.countP isSubscription < 2 ^ 64) :
    let s := (publisherSystem Client hyper).run initial es
    (∀ id h, s.subscribers.lookup id = some h →
      h.requestsInFlight = (sentTo id s).length -
        (((publisherSystem Client hyper).observe (answered id) initial es).length : ℤ) ∧
      0 ≤ h.requestsInFlight ∧ h.requestsInFlight ≤ 5) ∧
    ((publisherSystem Client hyper).observe assigned initial es).Nodup ∧
    (∀ k r answer id, s.spawned[k]? = some r → id ≠ r.idx →
      (s.complete k answer).subscribers.lookup id = s.subscribers.lookup id) ∧
    (∀ i id, id ≠ i → (s.dropSubscription i).subscribers.lookup id = s.subscribers.lookup id) ∧
    (∀ pre e post id, es = pre ++ e :: post →
      Removes id ((publisherSystem Client hyper).run initial pre) e →
      sentTo id s = sentTo id ((publisherSystem Client hyper).run initial pre)) := by
  obtain ⟨-, hbal, hids⟩ := run_known hyper initial_known initial_balanced hv (by omega)
  refine ⟨?_, ?_, fun k r answer id hr hid => complete_frame hr answer hid,
    fun i id hid => drop_frame _ hid, ?_⟩
  · intro id h hh
    obtain ⟨hc, hle⟩ := hbal id h hh
    have hcount := answered_run hyper id hv
    have hz : (line id (initial : State Client)).unanswered = 0 ∧
        (line id (initial : State Client)).sent.length = 0 := ⟨rfl, rfl⟩
    change (sentTo id _).length + _ = _ at hcount
    omega
  · rw [hids]
    exact List.nodup_range'
  · rintro pre e post id rfl hr
    obtain ⟨hvp, hve, hvq⟩ := ((publisherSystem Client hyper).always_append _ _ _ _).mp hv
    rw [List.countP_append, List.countP_cons] at hn
    obtain ⟨hk, -, -⟩ := run_known hyper initial_known initial_balanced hvp (by omega)
    obtain ⟨hid, hout, hsent, hns⟩ := removes_next hyper hk hr
    have hkn := known_next hyper hk (e := e) (by simp [hns])
    rw [hns] at hkn hn
    rw [System.run_append, System.run_cons, ← hsent]
    exact gone_run hyper hkn hid hout hvq (by simpa using hn)

def twoWorkers : List (Event Unit String) :=
  [.subscribe (some ()), .subscribe (some ()), .publish (.newServer "http://127.0.0.1:6000") [1, 0],
    .complete 1 .ok, .complete 0 .err, .publish (.serverStateDown "http://127.0.0.1:6000") [0]]

theorem in_flight_accounting_twoWorkers :
    ∃ h, ((publisherSystem Unit plainText).run initial twoWorkers).subscribers.lookup 0 =
        some h ∧
      h.requestsInFlight =
        (sentTo 0 ((publisherSystem Unit plainText).run initial twoWorkers)).length -
          (((publisherSystem Unit plainText).observe (answered 0) initial twoWorkers).length : ℤ) ∧
      0 ≤ h.requestsInFlight ∧ h.requestsInFlight ≤ 5 :=
  ⟨{ client := (), requestsInFlight := 1 }, by decide,
    (in_flight_accounting plainText twoWorkers (by decide) (by decide)).1 0 _ (by decide)⟩

end PublisherAccounting
