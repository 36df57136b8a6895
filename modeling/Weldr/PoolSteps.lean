import Weldr.PoolSelection

/-! One step of a pool, as later arguments use it: which backends it keeps, which cells it
writes and where it leaves the cursor. -/
namespace PoolSteps

open BackendPool ImperativeCode PoolSelection

variable {Uri : Type}

section Writes

variable (b c : Backend) (h : BackendHeap Uri)

theorem read_other {b c : Backend} {h : BackendHeap Uri}
    {f : InnerBackend Uri → InnerBackend Uri} (hne : c ≠ b) :
    c.read (h.modify b.inner f) = c.read h := by
  apply Heap.modify_cell_other h f
  intro he
  cases b; cases c
  exact hne (congrArg Backend.mk he)

@[simp] theorem server_markDown : c.server (b.markDown h) = c.server h :=
  h.modify_reading InnerBackend.server (by intro; rfl) _ _
@[simp] theorem server_markActive : c.server (b.markActive h) = c.server h :=
  h.modify_reading InnerBackend.server (by intro; rfl) _ _
@[simp] theorem server_incSuccess : c.server (b.incSuccess h) = c.server h :=
  h.modify_reading InnerBackend.server (by intro; rfl) _ _
@[simp] theorem server_incFailure : c.server (b.incFailure h) = c.server h :=
  h.modify_reading InnerBackend.server (by intro; rfl) _ _

@[simp] theorem state_incSuccess : (c.read (b.incSuccess h)).state = (c.read h).state :=
  h.modify_reading InnerBackend.state (by intro; rfl) _ _
@[simp] theorem state_incFailure : (c.read (b.incFailure h)).state = (c.read h).state :=
  h.modify_reading InnerBackend.state (by intro; rfl) _ _

@[simp] theorem read_markDown : b.read (b.markDown h) = { b.read h with state := .down } :=
  h.modify_cell_self _ _
@[simp] theorem read_markActive :
    b.read (b.markActive h) = { b.read h with state := .active } := h.modify_cell_self _ _

theorem read_alloc {b : Backend} {h : BackendHeap Uri} (hb : b.inner < h.next)
    (i : InnerBackend Uri) : b.read (h.alloc i).1 = b.read h := h.alloc_cell_old i hb

end Writes

/-- The references of a pool are to allocated cells, and no cell is in it twice. -/
structure WellFormed (p : Pool Uri) : Prop where
  allocated : ∀ b ∈ p.inner.backends, b.inner < p.heap.next
  nodup : p.inner.backends.Nodup

theorem default_wellFormed (h : BackendHeap Uri) : WellFormed (Pool.default h) := by
  constructor <;> simp [Pool.default]

variable {p : Pool Uri}

theorem get_heap {q : Pool Uri} {r : Option Backend} (hg : p.get = some (q, r)) :
    q.heap = p.heap ∧ q.inner.backends = p.inner.backends := by
  rcases get_cases hg with ⟨k, b, -, -, -, -, rfl⟩ | ⟨-, -, rfl⟩ <;> exact ⟨rfl, rfl⟩

variable [DecidableEq Uri]

omit [DecidableEq Uri] in
theorem read_new (h : BackendHeap Uri) (s : Server Uri) :
    (Backend.new h s).2.read (Backend.new h s).1 = InnerBackend.new s := h.alloc_cell_new _

theorem add_eq (p : Pool Uri) (s : Server Uri) :
    p.add s =
      if ∃ b ∈ p.inner.backends, b.read (Backend.new p.heap s).1 = InnerBackend.new s then
        ({ p with heap := (Backend.new p.heap s).1 }, false)
      else
        ({ heap := (Backend.new p.heap s).1
           inner := { p.inner with
             backends := p.inner.backends ++ [(Backend.new p.heap s).2] } }, true) := by
  simp only [Pool.add, InnerPool.add, List.any_eq_true, decide_eq_true_eq, read_new]
  split <;> rfl

theorem add_found (hp : WellFormed p) {s : Server Uri}
    (hs : ∃ b ∈ p.inner.backends, b.read p.heap = InnerBackend.new s) :
    p.add s = ({ p with heap := (p.heap.alloc (InnerBackend.new s)).1 }, false) := by
  obtain ⟨b, hb, he⟩ := hs
  rw [add_eq, if_pos ⟨b, hb, (read_alloc (hp.allocated b hb) _).trans he⟩]
  rfl

theorem add_missing (hp : WellFormed p) {s : Server Uri}
    (hs : ¬ ∃ b ∈ p.inner.backends, b.read p.heap = InnerBackend.new s) :
    p.add s =
      ({ heap := (p.heap.alloc (InnerBackend.new s)).1
         inner := { p.inner with backends := p.inner.backends ++ [⟨p.heap.next⟩] } }, true) := by
  rw [add_eq, if_neg]
  · rfl
  · rintro ⟨b, hb, he⟩
    exact hs ⟨b, hb, (read_alloc (hp.allocated b hb) _).symm.trans he⟩

theorem add_fresh (p : Pool Uri) (s : Server Uri) :
    ∃ b ∈ (p.add s).1.inner.backends, b.read (p.add s).1.heap = InnerBackend.new s := by
  rw [add_eq]
  split
  · assumption
  · exact ⟨_, List.mem_append_right _ (List.mem_singleton_self _), read_new p.heap s⟩

theorem next_get_heap (p : Pool Uri) :
    (PoolOp.next p .get).heap = p.heap ∧
      (PoolOp.next p .get).inner.backends = p.inner.backends := by
  simp only [PoolOp.next]
  cases hg : p.get with
  | none => exact ⟨rfl, rfl⟩
  | some r => exact get_heap hg

theorem next_wellFormed (hp : WellFormed p) (op : PoolOp Uri) :
    WellFormed (PoolOp.next p op) := by
  cases op with
  | add s =>
    by_cases hs : ∃ b ∈ p.inner.backends, b.read p.heap = InnerBackend.new s
    · simp only [PoolOp.next, add_found hp hs]
      exact ⟨fun b hb => Nat.lt_succ_of_lt (hp.allocated b hb), hp.nodup⟩
    · simp only [PoolOp.next, add_missing hp hs]
      constructor
      · intro b hb
        rcases List.mem_append.mp hb with hb | hb
        · exact Nat.lt_succ_of_lt (hp.allocated b hb)
        · rw [List.mem_singleton.mp hb]; exact Nat.lt_succ_self _
      · apply hp.nodup.append (List.nodup_singleton _)
        intro b hb hn
        rw [List.mem_singleton.mp hn] at hb
        exact absurd (hp.allocated _ hb) (lt_irrefl _)
  | remove s =>
    exact ⟨fun b hb => hp.allocated b (List.mem_of_mem_filter hb), hp.nodup.filter _⟩
  | get =>
    obtain ⟨hh, hb⟩ := next_get_heap p
    exact ⟨by rw [hh, hb]; exact hp.allocated, by rw [hb]; exact hp.nodup⟩
  | find => exact hp
  | markDown | markActive | incSuccess | incFailure => exact ⟨hp.allocated, hp.nodup⟩

theorem next_server (hp : WellFormed p) (op : PoolOp Uri) {b : Backend}
    (hb : b.inner < p.heap.next) : b.server (PoolOp.next p op).heap = b.server p.heap := by
  cases op with
  | add s =>
    by_cases hs : ∃ b ∈ p.inner.backends, b.read p.heap = InnerBackend.new s
    · simp only [PoolOp.next, add_found hp hs, Backend.server, read_alloc hb]
    · simp only [PoolOp.next, add_missing hp hs, Backend.server, read_alloc hb]
  | get => rw [(next_get_heap p).1]
  | remove | find => rfl
  | markDown c => exact server_markDown c b p.heap
  | markActive c => exact server_markActive c b p.heap
  | incSuccess c => exact server_incSuccess c b p.heap
  | incFailure c => exact server_incFailure c b p.heap

def stateAfter (b : Backend) (st : ServerState) : PoolOp Uri → ServerState
  | .markDown c => if b = c then .down else st
  | .markActive c => if b = c then .active else st
  | _ => st

theorem next_state (hp : WellFormed p) (op : PoolOp Uri) {b : Backend}
    (hb : b.inner < p.heap.next) :
    (b.read (PoolOp.next p op).heap).state = stateAfter b (b.read p.heap).state op := by
  cases op with
  | add s =>
    by_cases hs : ∃ b ∈ p.inner.backends, b.read p.heap = InnerBackend.new s
    · simp only [PoolOp.next, add_found hp hs, read_alloc hb, stateAfter]
    · simp only [PoolOp.next, add_missing hp hs, read_alloc hb, stateAfter]
  | get => rw [(next_get_heap p).1]; rfl
  | remove | find => rfl
  | markDown c =>
    by_cases hc : b = c
    · subst c
      rw [stateAfter, if_pos rfl]
      exact congrArg InnerBackend.state (read_markDown b p.heap)
    · have hread : b.read (c.markDown p.heap) = b.read p.heap := read_other hc
      rw [stateAfter, if_neg hc]
      exact congrArg InnerBackend.state hread
  | markActive c =>
    by_cases hc : b = c
    · subst c
      rw [stateAfter, if_pos rfl]
      exact congrArg InnerBackend.state (read_markActive b p.heap)
    · have hread : b.read (c.markActive p.heap) = b.read p.heap := read_other hc
      rw [stateAfter, if_neg hc]
      exact congrArg InnerBackend.state hread
  | incSuccess c => exact state_incSuccess c b p.heap
  | incFailure c => exact state_incFailure c b p.heap

theorem mem_next (hp : WellFormed p) {op : PoolOp Uri} {b : Backend}
    (hb : b ∈ (PoolOp.next p op).inner.backends) :
    b ∈ p.inner.backends ∨
      ∃ s, op = .add s ∧ b.read (PoolOp.next p op).heap = InnerBackend.new s := by
  cases op with
  | add s =>
    by_cases hs : ∃ b ∈ p.inner.backends, b.read p.heap = InnerBackend.new s
    · simp only [PoolOp.next, add_found hp hs] at hb
      exact Or.inl hb
    · simp only [PoolOp.next, add_missing hp hs] at hb ⊢
      rcases List.mem_append.mp hb with hb | hb
      · exact Or.inl hb
      · rw [List.mem_singleton.mp hb]
        exact Or.inr ⟨s, rfl, p.heap.alloc_cell_new _⟩
  | remove s => exact Or.inl (List.mem_of_mem_filter hb)
  | get => exact Or.inl ((next_get_heap p).2 ▸ hb)
  | find | markDown | markActive | incSuccess | incFailure => exact Or.inl hb

def Mapped (p : Pool Uri) : Prop :=
  ∀ b ∈ p.inner.backends, (b.server p.heap).mapHost = true

theorem next_mapped (hw : WellFormed p) (hp : Mapped p) {op : PoolOp Uri}
    (hadd : ∀ s, op = .add s → s.mapHost = true) : Mapped (PoolOp.next p op) := by
  intro b hb
  rcases mem_next hw hb with hold | ⟨s, rfl, hs⟩
  · rw [next_server hw op (hw.allocated b hold)]
    exact hp b hold
  · rw [Backend.server, hs]
    exact hadd s rfl

end PoolSteps

/-! When `InnerPool::get` ends. The loop leaves an exhausted pool only by meeting the
cursor it started from, and `remove` shortens the list without moving that cursor. -/
namespace PoolTermination

open BackendPool TransitionSystems PoolSelection

variable {Uri : Type}

/-- What every operation but `remove` keeps: the cursor stands on a position of the list,
or where it stood when the list was still empty. -/
def CursorInside (p : Pool Uri) : Prop :=
  p.inner.lastUsed = 0 ∨ p.inner.lastUsed < p.inner.backends.length

theorem CursorInside.returns {p : Pool Uri} (hp : CursorInside p) : GetReturns p := by
  rw [getReturns_iff]
  by_cases he : p.inner.backends = []
  · exact Or.inl he
  · have := List.length_pos_of_ne_nil he
    refine Or.inr (Or.inr ?_)
    rcases hp with h | h
    · omega
    · exact h

variable [DecidableEq Uri]

theorem next_cursorInside {p : Pool Uri} {op : PoolOp Uri} (hp : CursorInside p)
    (hop : op.isRemove = false) : CursorInside (PoolOp.next p op) := by
  cases op with
  | add s =>
    have grow : (p.add s).1.inner.lastUsed = p.inner.lastUsed ∧
        p.inner.backends.length ≤ (p.add s).1.inner.backends.length := by
      simp only [Pool.add, InnerPool.add]
      split <;> simp
    have := grow.2
    unfold CursorInside at *
    simp only [PoolOp.next, grow.1]
    omega
  | get =>
    simp only [PoolOp.next]
    cases hg : p.get with
    | none => exact hp
    | some r =>
      rcases get_cases hg with ⟨k, b, -, hb, -, -, hq⟩ | ⟨-, -, hq⟩
      · rw [Option.map_some, Option.getD_some, hq]
        exact Or.inr (List.getElem?_eq_some_iff.mp hb).1
      · rw [Option.map_some, Option.getD_some, hq]
        exact hp
  | remove => cases hop
  | find | markDown | markActive | incSuccess | incFailure => exact hp

theorem run_cursorInside {p : Pool Uri} (hp : CursorInside p) {ops : List (PoolOp Uri)}
    (hops : ∀ op ∈ ops, op.isRemove = false) : CursorInside ((poolSystem Uri).run p ops) :=
  System.run_invariant (T := poolSystem Uri) (I := CursorInside)
    (P := fun _ op => PoolOp.isRemove op = false) (fun _ _ => next_cursorInside) hp
    (System.always_of_forall (fun op hop _ => hops op hop) p)

/-- In every state that a sequence of operations reaches, `get` returns exactly if the pool
is empty, some backend is active, or the cursor stands inside the list; only a `remove` can
take it outside. -/
theorem get_returns_exactly (h : BackendHeap Uri) (ops : List (PoolOp Uri)) :
    let p := (poolSystem Uri).run (Pool.default h) ops
    (GetReturns p ↔ p.inner.backends = [] ∨
      (∃ b ∈ p.inner.backends, b.isActive p.heap = true) ∨
      p.inner.lastUsed < p.inner.backends.length) ∧
    ((∀ op ∈ ops, op.isRemove = false) → GetReturns p) :=
  ⟨getReturns_iff _, fun hops => (run_cursorInside (Or.inl rfl) hops).returns⟩

def hangServer (port : String) : Server String :=
  { url := "http://127.0.0.1:" ++ port, mapHost := true }

def hangOps : List (PoolOp String) :=
  [.add (hangServer "6000"), .add (hangServer "6001"), .get,
    .remove (hangServer "6000"), .markDown ⟨1⟩]

theorem get_hangs_after_remove :
    (poolSystem String).Valid (Pool.default blankHeap) hangOps ∧
    ∀ fuel, ((poolSystem String).run (Pool.default blankHeap) hangOps).inner.getWithin
      ((poolSystem String).run (Pool.default blankHeap) hangOps).heap fuel = none := by
  have hv : (poolSystem String).Valid (Pool.default blankHeap) hangOps := by decide
  have hn : ¬ GetReturns ((poolSystem String).run (Pool.default blankHeap) hangOps) := by
    rw [getReturns_iff]
    unfold SelectableOrInside
    decide
  refine ⟨hv, fun fuel => Option.eq_none_iff_forall_ne_some.mpr ?_⟩
  intro r hr
  exact hn ⟨fuel, r, hr⟩

end PoolTermination
