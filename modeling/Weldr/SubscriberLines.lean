import Mathlib.Data.List.Perm.Basic
import Weldr.Publisher

/-! The publisher as a family of independent lines, one a subscriber: a window of five
unanswered requests in front of one client. Each event of the publisher is an event of at
most one line, publications apart, which go to all. -/
namespace SubscriberLines

open RequestTargets SubscriberProtocol Publisher

variable {Client Uri : Type}

@[ext] structure Line (Client : Type) where
  handle : Option (SubscriberHandle Client)
  sent : List Request
  unanswered : ℕ

namespace Line

def subscribe (l : Line Client) (client : Client) : Line Client :=
  { l with handle := some { client := client, requestsInFlight := 0 } }

def publish (l : Line Client) (request : Request) : Line Client :=
  match l.handle with
  | none => l
  | some h =>
    if h.requestsInFlight < 5 then
      { handle := some { h with requestsInFlight := h.requestsInFlight + 1 }
        sent := l.sent ++ [request]
        unanswered := l.unanswered + 1 }
    else l

def callback (l : Line Client) : Answer → Line Client
  | .ok =>
    { l with handle := l.handle.map fun h =>
        { h with requestsInFlight := h.requestsInFlight - 1 } }
  | .err => { l with handle := none }

def complete (l : Line Client) (answer : Answer) : Line Client :=
  { l.callback answer with unanswered := l.unanswered - 1 }

def drop (l : Line Client) : Line Client := { l with handle := none }

end Line

def line (id : ℕ) (s : State Client) : Line Client :=
  { handle := s.subscribers.lookup id
    sent := sentTo id s
    unanswered := s.spawned.countP fun r => r.idx = id }

theorem line_publishTo (id idx : ℕ) (request : Request) (s : State Client) :
    line id (s.publishTo request idx) =
      if idx = id then (line id s).publish request else line id s := by
  unfold State.publishTo
  by_cases hi : idx = id
  · subst idx
    cases hl : s.subscribers.lookup id with
    | none => simp [line, Line.publish, hl]
    | some h =>
      by_cases hw : h.requestsInFlight < 5
      · simp [line, Line.publish, hl, hw, sentTo, List.countP_append]
      · simp [line, Line.publish, hl, hw]
  · rw [if_neg hi]
    cases hl : s.subscribers.lookup idx with
    | none => rfl
    | some h =>
      by_cases hw : h.requestsInFlight < 5
      · simp [line, hw, sentTo, hi, List.countP_append, AList.lookup_insert_ne (Ne.symm hi)]
      · simp [hw]

theorem line_publish_order (id : ℕ) (request : Request) {order : List ℕ} (hn : order.Nodup)
    (s : State Client) :
    line id (s.publish request order) =
      if id ∈ order then (line id s).publish request else line id s := by
  induction order generalizing s with
  | nil => rfl
  | cons idx order ih =>
    obtain ⟨hout, hn⟩ := List.nodup_cons.mp hn
    have hfold : s.publish request (idx :: order) =
        (s.publishTo request idx).publish request order := rfl
    rw [hfold, ih hn, line_publishTo]
    by_cases hi : idx = id
    · subst idx
      simp [hout]
    · simp [hi, Ne.symm hi]

theorem line_publish (id : ℕ) (request : Request) {order : List ℕ} {s : State Client}
    (ho : order.Perm s.subscribers.keys) :
    line id (s.publish request order) = (line id s).publish request := by
  rw [line_publish_order id request (ho.nodup_iff.mpr s.subscribers.keys_nodup)]
  by_cases hi : id ∈ order
  · rw [if_pos hi]
  · have hout : id ∉ s.subscribers := fun h => hi (ho.mem_iff.mpr (AList.mem_keys.mp h))
    have hnone : (line id s).handle = none := AList.lookup_eq_none.mpr hout
    rw [if_neg hi, Line.publish, hnone]

theorem line_callback (id idx : ℕ) (answer : Answer) (s : State Client) :
    line id (s.callback idx answer) =
      if idx = id then (line id s).callback answer else line id s := by
  cases answer with
  | ok =>
    simp only [State.callback]
    by_cases hi : idx = id
    · subst idx
      cases hl : s.subscribers.lookup id <;> simp [line, Line.callback, hl, sentTo]
    · cases hl : s.subscribers.lookup idx <;>
        simp [line, hi, sentTo, AList.lookup_insert_ne (Ne.symm hi)]
  | err =>
    simp only [State.callback]
    by_cases hi : idx = id
    · subst idx
      simp [line, Line.callback, sentTo, AList.lookup_erase]
    · simp [line, hi, sentTo, AList.lookup_erase_ne (Ne.symm hi)]

theorem countP_eraseIdx {α : Type} {l : List α} {k : ℕ} {a : α} (h : l[k]? = some a)
    (p : α → Bool) : l.countP p = (l.eraseIdx k).countP p + if p a then 1 else 0 := by
  obtain ⟨hk, rfl⟩ := List.getElem?_eq_some_iff.mp h
  rw [← (List.getElem_cons_eraseIdx_perm hk).countP_eq, List.countP_cons]

theorem line_complete (id : ℕ) {k : ℕ} {answer : Answer} {s : State Client} {r : Sent Client}
    (hr : s.spawned[k]? = some r) :
    line id (s.complete k answer) =
      if r.idx = id then (line id s).complete answer else line id s := by
  have hcount := countP_eraseIdx hr fun r => r.idx = id
  simp only [State.complete, hr, line_callback]
  by_cases hi : r.idx = id
  · simp only [hi, decide_true, if_true] at hcount ⊢
    cases answer <;> ext1 <;> simp [line, Line.complete, Line.callback, sentTo, hcount]
  · simp only [hi, decide_false, if_false, Bool.false_eq_true, Nat.add_zero] at hcount ⊢
    ext1 <;> simp [line, sentTo, hcount]

theorem line_drop (id : ℕ) {i : ℕ} {s : State Client} (hi : i ∈ s.subscriptions) :
    line id (s.dropSubscription i) = if i = id then (line id s).drop else line id s := by
  simp only [State.dropSubscription, if_pos hi]
  by_cases he : i = id
  · subst i
    simp [line, Line.drop, sentTo, AList.lookup_erase]
  · simp [line, he, sentTo, AList.lookup_erase_ne (Ne.symm he)]

theorem line_subscribe (id : ℕ) (s : State Client) (client : Client) :
    line id (s.subscribe (some client)) =
      if s.nextId = id then (line id s).subscribe client else line id s := by
  simp only [State.subscribe]
  by_cases he : s.nextId = id
  · subst id
    simp [line, Line.subscribe, sentTo]
  · simp [line, he, sentTo, AList.lookup_insert_ne (Ne.symm he)]

inductive LineEvent (Client : Type) where
  | subscribe (client : Client)
  | publish (request : Request)
  | complete (answer : Answer)
  | drop
  | other

def Line.next (l : Line Client) : LineEvent Client → Line Client
  | .subscribe client => l.subscribe client
  | .publish request => l.publish request
  | .complete answer => l.complete answer
  | .drop => l.drop
  | .other => l

def lineEvent (hyper : UriText Uri) (id : ℕ) (s : State Client) :
    Event Client Uri → LineEvent Client
  | .subscribe (some client) => if s.nextId = id then .subscribe client else .other
  | .subscribe none => .other
  | .publish p _ => .publish (p.request hyper)
  | .complete k answer =>
    match s.spawned[k]? with
    | none => .other
    | some r => if r.idx = id then .complete answer else .other
  | .drop i => if i ∈ s.subscriptions ∧ i = id then .drop else .other

/-- One event moves the line of every subscriber by what it is for that line alone. -/
theorem line_next (hyper : UriText Uri) (id : ℕ) {s : State Client} {e : Event Client Uri}
    (he : Enabled s e) : line id (next hyper s e) = (line id s).next (lineEvent hyper id s e) := by
  cases e with
  | subscribe params =>
    cases params with
    | none => rfl
    | some client =>
      simp only [next, lineEvent, line_subscribe]
      split <;> rfl
  | publish p order =>
    simp only [next, lineEvent, State.publication_eq]
    exact line_publish id _ he
  | complete k answer =>
    simp only [next, lineEvent]
    cases hr : s.spawned[k]? with
    | none => simp [State.complete, hr, Line.next]
    | some r =>
      rw [line_complete id hr]
      simp only
      split <;> rfl
  | drop i =>
    simp only [next, lineEvent]
    by_cases hi : i ∈ s.subscriptions
    · rw [line_drop id hi]
      by_cases hid : i = id
      · subst i
        simp [hi, Line.next]
      · simp [hid, Line.next]
    · simp [State.dropSubscription, hi, Line.next]

end SubscriberLines

/-! Two runs of the publisher side by side. A subscriber may have different ids in them and
different company; what it is sent is a function of the publications and of its own events. -/
namespace SubscriberIsolation

open TransitionSystems RequestTargets Publisher SubscriberLines

variable {Client Uri : Type}

/-- What the subscriber `id` has to do with an event: publications go to all, and every other
event belongs to one subscriber at most. -/
def heard (hyper : UriText Uri) (id : ℕ) (s : State Client) (e : Event Client Uri) :
    List (LineEvent Client) :=
  match lineEvent hyper id s e with
  | .other => []
  | own => [own]

theorem line_heard (hyper : UriText Uri) (id : ℕ) {s : State Client} {e : Event Client Uri}
    (he : Enabled s e) :
    line id (next hyper s e) = (heard hyper id s e).foldl Line.next (line id s) := by
  rw [line_next hyper id he, heard]
  cases lineEvent hyper id s e <;> rfl

/-- Over a run, the line of a subscriber is a function of what it has to do with. -/
theorem line_run (hyper : UriText Uri) (id : ℕ) {s : State Client} {es : List (Event Client Uri)}
    (hv : (publisherSystem Client hyper).Valid s es) :
    line id ((publisherSystem Client hyper).run s es) =
      ((publisherSystem Client hyper).observe (heard hyper id) s es).foldl Line.next
        (line id s) := by
  induction es generalizing s with
  | nil => rfl
  | cons e es ih =>
    rw [System.run_cons, ih hv.2, System.observe_cons, List.foldl_append]
    congr 1
    exact line_heard hyper id hv.1

/-- Two runs of the publisher in which a subscriber, be it under different ids, meets the same
publications and the same events of its own in the same order send it the same requests,
whatever happens to the other subscribers in each of them. -/
theorem sent_same_in_both_runs (hyper : UriText Uri) (es es' : List (Event Client Uri))
    (hv : (publisherSystem Client hyper).Valid initial es)
    (hv' : (publisherSystem Client hyper).Valid initial es') (id id' : ℕ)
    (hown : (publisherSystem Client hyper).observe (heard hyper id) initial es =
      (publisherSystem Client hyper).observe (heard hyper id') initial es') :
    sentTo id ((publisherSystem Client hyper).run initial es) =
      sentTo id' ((publisherSystem Client hyper).run initial es') := by
  have hstart : line id (initial : State Client) = line id' initial := rfl
  have hline : line id ((publisherSystem Client hyper).run initial es) =
      line id' ((publisherSystem Client hyper).run initial es') := by
    rw [line_run hyper id hv, line_run hyper id' hv', hown, hstart]
  exact congrArg Line.sent hline

theorem sent_same_beside_failing :
    sentTo 0 ((publisherSystem Unit plainText).run initial
        [.subscribe (some ()), .publish (.newServer "http://127.0.0.1:6000") [0],
          .complete 0 .ok, .publish (.serverStateDown "http://127.0.0.1:6000") [0]]) =
      sentTo 1 ((publisherSystem Unit plainText).run initial
        [.subscribe (some ()), .subscribe (some ()),
          .publish (.newServer "http://127.0.0.1:6000") [0, 1], .complete 0 .err,
          .complete 0 .ok, .publish (.serverStateDown "http://127.0.0.1:6000") [1]]) :=
  sent_same_in_both_runs plainText _ _ (by decide) (by decide) 0 1 rfl

end SubscriberIsolation

/-! Which publications reach a subscriber. A publish loop passes over an entry whose window
is full and nothing sends the change later, so what a subscriber is sent is what was
published to it only as long as its window was never found full. -/
namespace PublisherDelivery

open TransitionSystems RequestTargets SubscriberProtocol Publisher SubscriberLines

variable {Client Uri : Type}

/-- At a publication, a subscriber in the map has fewer than five requests in flight. -/
def WindowOpen (id : ℕ) (s : State Client) : Event Client Uri → Prop
  | .publish _ _ => ∀ h ∈ s.subscribers.lookup id, h.requestsInFlight < 5
  | _ => True

instance (id : ℕ) (s : State Client) : (e : Event Client Uri) → Decidable (WindowOpen id s e)
  | .publish _ _ =>
    inferInstanceAs (Decidable (∀ h ∈ s.subscribers.lookup id, h.requestsInFlight < 5))
  | .subscribe _ | .complete _ _ | .drop _ => inferInstanceAs (Decidable True)

def sentNow (hyper : UriText Uri) (id : ℕ) (s : State Client) : Event Client Uri → List Request
  | .publish p _ =>
    match s.subscribers.lookup id with
    | none => []
    | some h => if h.requestsInFlight < 5 then [p.request hyper] else []
  | _ => []

theorem line_sent (l : Line Client) (e : LineEvent Client) (h : ∀ r, e ≠ .publish r) :
    (l.next e).sent = l.sent := by
  cases e with
  | publish r => exact absurd rfl (h r)
  | complete answer => cases answer <;> rfl
  | subscribe | drop | other => rfl

theorem sentTo_next (hyper : UriText Uri) (id : ℕ) {s : State Client} {e : Event Client Uri}
    (he : Enabled s e) :
    sentTo id (next hyper s e) = sentTo id s ++ sentNow hyper id s e := by
  have hline := congrArg Line.sent (line_next hyper id he)
  change sentTo id (next hyper s e) = _ at hline
  rw [hline]
  cases e with
  | publish p order =>
    simp only [lineEvent, Line.next, Line.publish, sentNow, line]
    cases hl : s.subscribers.lookup id with
    | none => simp
    | some h => by_cases hw : h.requestsInFlight < 5 <;> simp [hw]
  | subscribe params =>
    rw [line_sent _ _ (by cases params <;> simp only [lineEvent] <;> (try split) <;> simp)]
    simp [line, sentNow]
  | complete k answer =>
    rw [line_sent _ _ (by simp only [lineEvent]; split <;> (try split) <;> simp)]
    simp [line, sentNow]
  | drop i =>
    rw [line_sent _ _ (by simp only [lineEvent]; split <;> simp)]
    simp [line, sentNow]

theorem sentNow_sublist (hyper : UriText Uri) (id : ℕ) (s : State Client)
    (e : Event Client Uri) : (sentNow hyper id s e).Sublist (publishedTo hyper id s e) := by
  cases e with
  | publish p order =>
    simp only [sentNow, publishedTo]
    cases hl : s.subscribers.lookup id with
    | none => exact List.nil_sublist _
    | some h =>
      have hin : id ∈ s.subscribers := AList.lookup_isSome.mp (by simp [hl])
      by_cases hw : h.requestsInFlight < 5 <;> simp [hw, hin]
  | _ => exact List.Sublist.refl _

theorem sentNow_eq_iff (hyper : UriText Uri) (id : ℕ) (s : State Client)
    (e : Event Client Uri) :
    sentNow hyper id s e = publishedTo hyper id s e ↔ WindowOpen id s e := by
  cases e with
  | publish p order =>
    simp only [sentNow, publishedTo, WindowOpen]
    cases hl : s.subscribers.lookup id with
    | none => simp [AList.lookup_eq_none.mp hl]
    | some h =>
      have hin : id ∈ s.subscribers := AList.lookup_isSome.mp (by simp [hl])
      by_cases hw : h.requestsInFlight < 5 <;> simp [hw, hin]
  | _ => simp [sentNow, publishedTo, WindowOpen]

/-- Over a run, what a subscriber is sent is a part of what was published to it. -/
theorem sentTo_run (hyper : UriText Uri) (id : ℕ) {s : State Client}
    {es : List (Event Client Uri)} (hv : (publisherSystem Client hyper).Valid s es) :
    sentTo id ((publisherSystem Client hyper).run s es) =
      sentTo id s ++ (publisherSystem Client hyper).observe (sentNow hyper id) s es :=
  System.run_reading (T := publisherSystem Client hyper)
    (hv.imp fun _ _ he => sentTo_next hyper id he)

/-- In every run of the publisher and for every subscriber, the requests sent to it are
exactly the publications made while it was in the map, each once and in order, if and only
if none of these publications found five of its requests in flight. -/
theorem sent_eq_published_iff (hyper : UriText Uri) (es : List (Event Client Uri))
    (hv : (publisherSystem Client hyper).Valid initial es) (id : ℕ) :
    sentTo id ((publisherSystem Client hyper).run initial es) =
        (publisherSystem Client hyper).observe (publishedTo hyper id) initial es ↔
      (publisherSystem Client hyper).Always (WindowOpen id) initial es := by
  have hnone : sentTo id (initial : State Client) = [] := rfl
  rw [sentTo_run hyper id hv, hnone, List.nil_append,
    System.observe_eq_iff (sentNow_sublist hyper id)]
  constructor
  · exact System.Always.imp fun s e h => (sentNow_eq_iff hyper id s e).mp h
  · exact System.Always.imp fun s e h => (sentNow_eq_iff hyper id s e).mpr h

def burst (n : ℕ) : List (Event Unit String) :=
  .subscribe (some ()) :: List.replicate n (.publish (.newServer "http://127.0.0.1:6000") [0])

theorem sent_eq_published_open :
    sentTo 0 ((publisherSystem Unit plainText).run initial (burst 5)) =
      (publisherSystem Unit plainText).observe (publishedTo plainText 0) initial (burst 5) :=
  (sent_eq_published_iff plainText (burst 5) (by decide) 0).mpr (by decide)

theorem sixth_publication_lost :
    (publisherSystem Unit plainText).Valid initial (burst 6) ∧
    sentTo 0 ((publisherSystem Unit plainText).run initial (burst 6)) ≠
      (publisherSystem Unit plainText).observe (publishedTo plainText 0) initial (burst 6) := by
  decide

end PublisherDelivery
