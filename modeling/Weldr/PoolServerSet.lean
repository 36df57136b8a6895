import Weldr.PoolSteps
import Weldr.OrderedCollections
import Weldr.Publisher

/-! The pool against an ordered set of servers. `add` looks for an equal backend, state and
counters included, so it agrees with membership exactly while the backend it could meet is
still as it was made. -/
namespace PoolServerSet

open BackendPool TransitionSystems PoolSteps OrderedCollections

variable {Uri : Type} [DecidableEq Uri]

/-- The set law of one operation: no server twice afterwards, `add` refuses exactly a
server that is pooled, and `remove` cuts out exactly the backend of its server. -/
def SetLaw (p : Pool Uri) (op : PoolOp Uri) : Prop :=
  (PoolOp.next p op).servers.Nodup ∧
  match op with
  | .add s =>
    ((p.add s).2 = false ↔ ∃ b ∈ p.inner.backends, b.server p.heap = s) ∧
    ((p.add s).2 = false →
      (p.add s).1.inner = p.inner ∧ (p.add s).1.contents = p.contents) ∧
    ((p.add s).2 = true →
      ∃ b, (p.add s).1.contents = p.contents ++ [(b, InnerBackend.new s)])
  | .remove s =>
    (∀ pre c post, p.contents = pre ++ c :: post → c.2.server = s →
      (p.remove s).contents = pre ++ post) ∧
    (s ∉ p.servers → (p.remove s).contents = p.contents)
  | op => (PoolOp.next p op).servers = p.servers

/-- The backends that an `add` could take for its own server are as `Backend::new` made
them: active and with both counters at zero. -/
def FreshAdd (p : Pool Uri) : PoolOp Uri → Prop
  | .add s => ∀ b ∈ p.inner.backends, b.server p.heap = s → b.read p.heap = InnerBackend.new s
  | _ => True

instance (p : Pool Uri) : (op : PoolOp Uri) → Decidable (FreshAdd p op)
  | .add s => inferInstanceAs (Decidable (∀ b ∈ p.inner.backends,
      b.server p.heap = s → b.read p.heap = InnerBackend.new s))
  | .remove _ | .find _ | .get => inferInstanceAs (Decidable True)
  | .markDown _ | .markActive _ => inferInstanceAs (Decidable True)
  | .incSuccess _ | .incFailure _ => inferInstanceAs (Decidable True)

/-- The purpose of the pool, as far as its membership goes. -/
def setNext (S : OrderedSet (Server Uri)) : PoolOp Uri → OrderedSet (Server Uri)
  | .add s => (S.add s).1
  | .remove s => S.remove s
  | _ => S

def setSystem (Uri : Type) [DecidableEq Uri] :
    System (OrderedSet (Server Uri)) (PoolOp Uri) :=
  { Enabled := fun _ _ => True, next := setNext }

def setAnswer (S : OrderedSet (Server Uri)) : PoolOp Uri → List Bool
  | .add s => [(S.add s).2]
  | _ => []

def addAnswer (p : Pool Uri) : PoolOp Uri → List Bool
  | .add s => [(p.add s).2]
  | _ => []

omit [DecidableEq Uri] in
theorem mem_servers {p : Pool Uri} {s : Server Uri} :
    s ∈ p.servers ↔ ∃ b ∈ p.inner.backends, b.server p.heap = s := List.mem_map

omit [DecidableEq Uri] in
theorem contents_servers (p : Pool Uri) : p.contents.map (fun c => c.2.server) = p.servers := by
  simp [Pool.contents, Pool.servers, Backend.server]

section Add

variable {p : Pool Uri} {s : Server Uri}

omit [DecidableEq Uri] in
/-- Among fresh backends, looking for an equal backend is looking for the server. -/
theorem fresh_iff_mem (hf : FreshAdd p (.add s)) :
    (∃ b ∈ p.inner.backends, b.read p.heap = InnerBackend.new s) ↔ s ∈ p.servers := by
  rw [mem_servers]
  constructor
  · rintro ⟨b, hb, he⟩
    exact ⟨b, hb, by rw [Backend.server, he]; rfl⟩
  · rintro ⟨b, hb, he⟩
    exact ⟨b, hb, hf b hb he⟩

theorem add_contents_false (hp : WellFormed p) (h : (p.add s).2 = false) :
    (p.add s).1.inner = p.inner ∧ (p.add s).1.contents = p.contents := by
  by_cases hs : ∃ b ∈ p.inner.backends, b.read p.heap = InnerBackend.new s
  · rw [add_found hp hs]
    refine ⟨rfl, List.map_congr_left ?_⟩
    intro b hb
    simp only [read_alloc (hp.allocated b hb)]
  · rw [add_missing hp hs] at h
    cases h

theorem add_contents_true (hp : WellFormed p) (h : (p.add s).2 = true) :
    (p.add s).1.contents = p.contents ++ [(⟨p.heap.next⟩, InnerBackend.new s)] := by
  by_cases hs : ∃ b ∈ p.inner.backends, b.read p.heap = InnerBackend.new s
  · rw [add_found hp hs] at h
    cases h
  · rw [add_missing hp hs]
    simp only [Pool.contents, List.map_append, List.map_cons, List.map_nil]
    congr 1
    · apply List.map_congr_left
      intro b hb
      simp only [read_alloc (hp.allocated b hb)]
    · simp [Backend.read]

end Add

theorem remove_contents (p : Pool Uri) (s : Server Uri) :
    (p.remove s).contents = p.contents.filter fun c => c.2.server ≠ s := by
  simp only [Pool.remove, InnerPool.remove, Pool.contents, List.filter_map]
  rfl

theorem next_servers_other {p : Pool Uri} (hp : WellFormed p) {op : PoolOp Uri}
    (h : ∀ s, op ≠ .add s ∧ op ≠ .remove s) : (PoolOp.next p op).servers = p.servers := by
  have hb : (PoolOp.next p op).inner.backends = p.inner.backends := by
    cases op with
    | add s => exact absurd rfl (h s).1
    | remove s => exact absurd rfl (h s).2
    | get => exact (next_get_heap p).2
    | find | markDown | markActive | incSuccess | incFailure => rfl
  unfold Pool.servers
  rw [hb]
  exact List.map_congr_left fun b hm => next_server hp op (hp.allocated b hm)

/-- One operation refines the set: same members in the same order, same answer. -/
theorem next_refines {p : Pool Uri} (hp : WellFormed p) {S : OrderedSet (Server Uri)}
    (hS : p.servers = S.elems) {op : PoolOp Uri} (hf : FreshAdd p op) :
    (PoolOp.next p op).servers = (setNext S op).elems ∧ addAnswer p op = setAnswer S op := by
  cases op with
  | add s =>
    simp only [PoolOp.next, setNext, addAnswer, setAnswer]
    by_cases hs : s ∈ p.servers
    · have ha : (p.add s).2 = false := by rw [add_found hp ((fresh_iff_mem hf).mpr hs)]
      rw [OrderedSet.add_of_mem (hS ▸ hs), ha, ← contents_servers, (add_contents_false hp ha).2,
        contents_servers]
      exact ⟨hS, rfl⟩
    · have ha : (p.add s).2 = true := by
        rw [add_missing hp (fun h => hs ((fresh_iff_mem hf).mp h))]
      obtain ⟨he, ht⟩ := OrderedSet.add_of_notMem (hS ▸ hs : s ∉ S.elems)
      rw [he, ht, ha, ← contents_servers, add_contents_true hp ha, List.map_append,
        contents_servers, hS]
      exact ⟨rfl, rfl⟩
  | remove s =>
    refine ⟨?_, rfl⟩
    simp only [PoolOp.next, setNext, OrderedSet.remove]
    rw [← contents_servers, remove_contents, ← hS, ← contents_servers, List.filter_map]
    rfl
  | get | find | markDown | markActive | incSuccess | incFailure =>
    exact ⟨(next_servers_other hp (by simp)).trans hS, rfl⟩

/-- Over a run that only makes fresh additions the pool is the set, answers included. -/
theorem run_refines {p : Pool Uri} (hp : WellFormed p) {S : OrderedSet (Server Uri)}
    (hS : p.servers = S.elems) {ops : List (PoolOp Uri)}
    (hf : (poolSystem Uri).Always FreshAdd p ops) :
    ((poolSystem Uri).run p ops).servers = ((setSystem Uri).run S ops).elems ∧
      (poolSystem Uri).observe addAnswer p ops = (setSystem Uri).observe setAnswer S ops := by
  induction ops generalizing p S with
  | nil => exact ⟨hS, rfl⟩
  | cons op ops ih =>
    obtain ⟨hn, ha⟩ := next_refines hp hS hf.1
    obtain ⟨hr, ho⟩ := ih (next_wellFormed hp op) hn hf.2
    refine ⟨hr, ?_⟩
    rw [System.observe_cons, System.observe_cons, ha]
    exact congrArg _ ho

structure Distinct (p : Pool Uri) : Prop where
  wellFormed : WellFormed p
  servers : p.servers.Nodup

omit [DecidableEq Uri] in
theorem default_distinct (h : BackendHeap Uri) : Distinct (Pool.default h) :=
  ⟨default_wellFormed h, List.nodup_nil⟩

theorem next_distinct {p : Pool Uri} {op : PoolOp Uri} (hp : Distinct p) (hf : FreshAdd p op) :
    Distinct (PoolOp.next p op) := by
  refine ⟨next_wellFormed hp.wellFormed op, ?_⟩
  rw [(next_refines hp.wellFormed (S := ⟨p.servers, hp.servers⟩) rfl hf).1]
  exact (setNext _ op).nodup

theorem setLaw_of_fresh {p : Pool Uri} {op : PoolOp Uri} (hp : Distinct p)
    (hf : FreshAdd p op) : SetLaw p op := by
  refine ⟨(next_distinct hp hf).servers, ?_⟩
  have hw := hp.wellFormed
  cases op with
  | add s =>
    refine ⟨?_, add_contents_false hw, fun h => ⟨_, add_contents_true hw h⟩⟩
    rw [← mem_servers, ← fresh_iff_mem hf]
    by_cases hs : ∃ b ∈ p.inner.backends, b.read p.heap = InnerBackend.new s
    · simp only [add_found hw hs, hs]
    · simp only [add_missing hw hs, hs, Bool.true_eq_false]
  | remove s =>
    have hn : (p.contents.map fun c => c.2.server).Nodup := contents_servers p ▸ hp.servers
    constructor
    · rintro pre c post he rfl
      rw [remove_contents, he]
      exact filter_key_split (he ▸ hn)
    · intro hs
      rw [remove_contents, List.filter_eq_self]
      intro c hc
      rw [← contents_servers] at hs
      exact decide_eq_true fun he => hs (he ▸ List.mem_map_of_mem hc)
  | get | find | markDown | markActive | incSuccess | incFailure =>
    exact next_servers_other hw (by simp)

theorem fresh_of_setLaw {p : Pool Uri} {op : PoolOp Uri} (hp : Distinct p)
    (hl : SetLaw p op) : FreshAdd p op := by
  cases op with
  | add s =>
    intro b hb hbs
    have hfalse := hl.2.1.mpr ⟨b, hb, hbs⟩
    -- `add` refused, so some backend is as new; it can only be the one of this server
    obtain ⟨c, hc, hnew⟩ : ∃ c ∈ p.inner.backends, c.read p.heap = InnerBackend.new s := by
      by_contra hs
      rw [add_missing hp.wellFormed hs] at hfalse
      cases hfalse
    have hcs : c.server p.heap = b.server p.heap := by
      rw [hbs, Backend.server, hnew]
      rfl
    rw [← List.inj_on_of_nodup_map hp.servers hc hb hcs]
    exact hnew
  | _ => trivial

theorem always_setLaw_iff {p : Pool Uri} (hp : Distinct p) {ops : List (PoolOp Uri)} :
    (poolSystem Uri).Always SetLaw p ops ↔ (poolSystem Uri).Always FreshAdd p ops := by
  constructor
  · intro h
    have hinv := System.always_invariant (T := poolSystem Uri) (I := Distinct) (P := SetLaw)
      (fun p op hp hl => ⟨next_wellFormed hp.wellFormed op, hl.1⟩) hp h
    exact hinv.1.imp fun p op hpl => fresh_of_setLaw hpl.1 hpl.2
  · intro h
    have hinv := System.always_invariant (T := poolSystem Uri) (I := Distinct) (P := FreshAdd)
      (fun _ _ => next_distinct) hp h
    exact hinv.1.imp fun p op hpf => setLaw_of_fresh hpf.1 hpf.2

/-- From an empty pool, the set law holds of every operation of a run exactly if every
`add` of the run meets no backend of its server, or one that is as it was made; the run is
then a run of the ordered set. -/
theorem pool_refines_set_iff (h : BackendHeap Uri) (ops : List (PoolOp Uri)) :
    ((poolSystem Uri).Always SetLaw (Pool.default h) ops ↔
      (poolSystem Uri).Always FreshAdd (Pool.default h) ops) ∧
    ((poolSystem Uri).Always FreshAdd (Pool.default h) ops →
      ((poolSystem Uri).run (Pool.default h) ops).servers =
        ((setSystem Uri).run OrderedSet.empty ops).elems ∧
      (poolSystem Uri).observe addAnswer (Pool.default h) ops =
        (setSystem Uri).observe setAnswer OrderedSet.empty ops) :=
  ⟨always_setLaw_iff (default_distinct h), run_refines (default_wellFormed h) rfl⟩

theorem pool_refines_set_removed :
    ((poolSystem String).run (Pool.default blankHeap)
      [.add ⟨"a", true⟩, .add ⟨"b", true⟩, .markDown ⟨0⟩, .remove ⟨"a", true⟩]).servers =
        ((setSystem String).run OrderedSet.empty
          [.add ⟨"a", true⟩, .add ⟨"b", true⟩, .markDown ⟨0⟩, .remove ⟨"a", true⟩]).elems :=
  ((pool_refines_set_iff blankHeap _).2 (by decide)).1

def twiceServer : Server String := { url := "http://127.0.0.1:6000", mapHost := true }

def twiceOps : List (PoolOp String) := [.add twiceServer, .markDown ⟨0⟩, .add twiceServer]

theorem add_pools_server_twice :
    (poolSystem String).Valid (Pool.default blankHeap) twiceOps ∧
    (poolSystem String).observe addAnswer (Pool.default blankHeap) twiceOps = [true, true] ∧
    ((poolSystem String).run (Pool.default blankHeap) twiceOps).servers =
      [twiceServer, twiceServer] ∧
    ¬ (poolSystem String).Always SetLaw (Pool.default blankHeap) twiceOps := by
  have hs : ((poolSystem String).run (Pool.default blankHeap) twiceOps).servers =
      [twiceServer, twiceServer] := by decide
  refine ⟨by decide, by decide, hs, ?_⟩
  intro hl
  have hn : ((poolSystem String).run (Pool.default blankHeap) twiceOps).servers.Nodup :=
    hl.2.2.1.1
  rw [hs] at hn
  simp at hn

end PoolServerSet

/-! What manager and workers keep in step: the servers of a pool in order, each with its
state. The counters are left out, for they are a worker's own. -/
namespace PoolView

open BackendPool PoolSteps PoolServerSet SubscriberProtocol

abbrev View (Uri : Type) := List (Server Uri × ServerState)

section Abstract

variable {Uri : Type} [DecidableEq Uri]

def serverOf (url : Uri) : Server Uri := { url := url, mapHost := true }

def setState (s : Server Uri) (st : ServerState) (v : View Uri) : View Uri :=
  v.map fun x => if x.1 = s then (x.1, st) else x

/-- What a publication is meant to do. -/
def applied (v : View Uri) : Publication Uri → View Uri
  | .newServer url =>
    if serverOf url ∈ v.map Prod.fst then v else v ++ [(serverOf url, .active)]
  | .serverStateDown url => setState (serverOf url) .down v
  | .serverStateActive url => setState (serverOf url) .active v

theorem setState_servers (s : Server Uri) (st : ServerState) (v : View Uri) :
    (setState s st v).map Prod.fst = v.map Prod.fst := by
  simp only [setState, List.map_map]
  apply List.map_congr_left
  intro x _
  by_cases hx : x.1 = s <;> simp [hx]

theorem setState_of_notMem {s : Server Uri} {st : ServerState} {v : View Uri}
    (h : s ∉ v.map Prod.fst) : setState s st v = v := by
  refine (List.map_congr_left fun x hx => if_neg ?_).trans (List.map_id' v)
  rintro rfl
  exact h (List.mem_map_of_mem hx)

end Abstract

section Pools

variable {Uri : Type}

def view (p : Pool Uri) : View Uri :=
  p.inner.backends.map fun b => (b.server p.heap, (b.read p.heap).state)

theorem view_servers (p : Pool Uri) : (view p).map Prod.fst = p.servers := by
  simp [view, Pool.servers]

theorem view_contents (p : Pool Uri) :
    view p = p.contents.map fun c => (c.2.server, c.2.state) := by
  simp [view, Pool.contents, Backend.server]

variable [DecidableEq Uri] {p : Pool Uri}

theorem view_add (hp : WellFormed p) {url : Uri} (hf : FreshAdd p (.add (serverOf url))) :
    view (PoolOp.next p (.add (serverOf url))) = applied (view p) (.newServer url) := by
  rw [applied, view_servers]
  by_cases hs : serverOf url ∈ p.servers
  · have ha : (p.add (serverOf url)).2 = false := by
      rw [add_found hp ((fresh_iff_mem hf).mpr hs)]
    rw [if_pos hs, view_contents, view_contents]
    exact congrArg _ (add_contents_false hp ha).2
  · have ha : (p.add (serverOf url)).2 = true := by
      rw [add_missing hp fun h => hs ((fresh_iff_mem hf).mp h)]
    rw [if_neg hs, view_contents, view_contents]
    simp only [PoolOp.next]
    rw [add_contents_true hp ha, List.map_append]
    rfl

theorem view_next (hp : WellFormed p) {op : PoolOp Uri}
    (h : ∀ s, op ≠ .add s ∧ op ≠ .remove s) :
    view (PoolOp.next p op) = p.inner.backends.map fun b =>
      (b.server p.heap, stateAfter b (b.read p.heap).state op) := by
  have hb : (PoolOp.next p op).inner.backends = p.inner.backends := by
    cases op with
    | add s => exact absurd rfl (h s).1
    | remove s => exact absurd rfl (h s).2
    | get => exact (next_get_heap p).2
    | find | markDown | markActive | incSuccess | incFailure => rfl
  rw [view, hb]
  apply List.map_congr_left
  intro b hm
  rw [next_server hp op (hp.allocated b hm), next_state hp op (hp.allocated b hm)]

def markOp (b : Backend) : ServerState → PoolOp Uri
  | .active => .markActive b
  | .down => .markDown b

def markPublication (url : Uri) : ServerState → Publication Uri
  | .active => .serverStateActive url
  | .down => .serverStateDown url

omit [DecidableEq Uri] in
theorem stateAfter_mark (b c : Backend) (st old : ServerState) :
    stateAfter c old (markOp b st : PoolOp Uri) = if c = b then st else old := by
  cases st <;> rfl

theorem server_mark (p : Pool Uri) (b c : Backend) (st : ServerState) :
    c.server (PoolOp.next p (markOp b st)).heap = c.server p.heap := by
  cases st with
  | active => exact server_markActive b c p.heap
  | down => exact server_markDown b c p.heap

theorem view_mark (hp : Distinct p) {b : Backend} (hb : b ∈ p.inner.backends)
    (st : ServerState) :
    view (PoolOp.next p (markOp b st)) = setState (b.server p.heap) st (view p) := by
  rw [view_next hp.wellFormed (by cases st <;> simp [markOp]), setState, view, List.map_map]
  apply List.map_congr_left
  intro c hc
  have hsame : c.server p.heap = b.server p.heap ↔ c = b :=
    ⟨List.inj_on_of_nodup_map hp.servers hc hb, fun h => by rw [h]⟩
  rw [stateAfter_mark]
  by_cases h : c = b
  · simp [h]
  · simp [h, hsame]

end Pools

end PoolView
