import Weldr.WorkerRouting

/-! The load of a worker's backends: between two backends that stay pooled and active the
requests go back and forth, and the counters of a backend say what became of its requests. -/
namespace WorkerLoad

open BackendPool RequestTargets PoolSelection PoolSteps PoolFairness WorkerSubscriber
  TransitionSystems

variable {Uri : Type} [DecidableEq Uri]

def taken (w : State Uri) : Event → List Backend
  | .request => PoolOp.selected w.pool .get
  | .message _ | .complete _ _ => []

section Turns

variable {x y : Backend} {p : Pool Uri}

/-- The requests that one of two backends takes: `true` for the first. -/
def turnsOf (x y : Backend) (bs : List Backend) : List Bool :=
  bs.filterMap fun b => if b = x then some true else if b = y then some false else none

def party (x y : Backend) : Bool → Backend
  | true => x
  | false => y

omit [DecidableEq Uri] in
theorem ahead_total (hx : x ∈ p.inner.backends) (hy : y ∈ p.inner.backends) (hne : x ≠ y) :
    AheadOf p x y ∨ AheadOf p y x := by
  obtain ⟨i, hi, rfl⟩ := List.getElem_of_mem hx
  obtain ⟨j, hj, rfl⟩ := List.getElem_of_mem hy
  have hij : i ≠ j := by rintro rfl; exact hne rfl
  have hcases : CyclicScan.Ahead i j p.inner.lastUsed ∨ CyclicScan.Ahead j i p.inner.lastUsed := by
    unfold CyclicScan.Ahead
    omega
  rcases hcases with h | h
  · exact Or.inl ⟨i, j, List.getElem?_eq_getElem hi, List.getElem?_eq_getElem hj, h⟩
  · exact Or.inr ⟨j, i, List.getElem?_eq_getElem hj, List.getElem?_eq_getElem hi, h⟩

/-- Of two pooled backends, the one whose turn it is comes first from the cursor on. -/
structure Due (x y : Backend) (due : Bool) (p : Pool Uri) : Prop where
  rotating : Rotating p
  pooled : ∀ v, party x y v ∈ p.inner.backends
  ahead : AheadOf p (party x y !due) (party x y due)

theorem turnsOf_party (hne : x ≠ y) (v : Bool) : turnsOf x y [party x y v] = [v] := by
  cases v
  · simp [turnsOf, party, hne.symm]
  · simp [turnsOf, party]

theorem turnsOf_other {b : Backend} {v : Bool} (hv : b ≠ party x y v) (hv' : b ≠ party x y !v) :
    turnsOf x y [b] = [] := by
  cases v
  · have hx : b ≠ x := hv'
    have hy : b ≠ y := hv
    simp [turnsOf, hx, hy]
  · have hx : b ≠ x := hv
    have hy : b ≠ y := hv'
    simp [turnsOf, hx, hy]

theorem count_turnsOf (hne : x ≠ y) (bs : List Backend) (v : Bool) :
    (turnsOf x y bs).count v = bs.count (party x y v) := by
  induction bs with
  | nil => rfl
  | cons b bs ih =>
    have hcons : turnsOf x y (b :: bs) = turnsOf x y [b] ++ turnsOf x y bs :=
      List.filterMap_append (l := [b])
    rw [hcons, List.count_append, ih, List.count_cons, Nat.add_comm]
    congr 1
    by_cases hb : b = party x y v
    · rw [hb, turnsOf_party hne]
      simp
    · by_cases hb' : b = party x y !v
      · rw [hb'] at hb ⊢
        rw [turnsOf_party hne]
        cases v <;> simpa using hb
      · rw [turnsOf_other hb hb']
        simp [hb]

theorem next_due {due : Bool} (hp : Due x y due p) (hne : x ≠ y)
    (hact : ∀ v, (party x y v).isActive p.heap = true) {op : PoolOp Uri}
    (hop : op.isRemove = false) :
    let vs := turnsOf x y (PoolOp.selected p op)
    turnSystem.Valid due vs ∧ Due x y (turnSystem.run due vs) (PoolOp.next p op) := by
  have hrot := next_rotating hp.rotating hop
  have hgrow := next_prefix (p := p) hop
  have hpool : ∀ v, party x y v ∈ (PoolOp.next p op).inner.backends := fun v =>
    hgrow.subset (hp.pooled v)
  by_cases hsel : ∃ b, b ∈ PoolOp.selected p op
  · obtain ⟨b, hb⟩ := hsel
    cases op with
    | get =>
      obtain ⟨q, hg, hq⟩ := selected_get hb
      have hs : PoolOp.selected p .get = [b] := by simp [PoolOp.selected, hg]
      obtain ⟨-, -, hother, hself⟩ := get_ahead hp.rotating.wellFormed hp.rotating.inside hg
      rw [hs]
      rw [hq] at hrot hpool ⊢
      by_cases hz : b = party x y due
      · subst hz
        have hparty : party x y (!due) ≠ party x y due := by
          cases due
          · exact hne
          · exact hne.symm
        have hahead := hself _ (hp.pooled !due) hparty
        rw [turnsOf_party hne]
        refine ⟨⟨rfl, trivial⟩, hrot, hpool, ?_⟩
        change AheadOf q (party x y !!due) (party x y !due)
        rwa [Bool.not_not]
      · rcases hother _ _ (hact due) hp.ahead with he | ⟨hahead, hne'⟩
        · exact absurd he hz
        · rw [turnsOf_other hz hne']
          exact ⟨trivial, hrot, hpool, hahead⟩
    | add | remove | find | markDown | markActive | incSuccess | incFailure => cases hb
  · have hnone : PoolOp.selected p op = [] :=
      List.eq_nil_iff_forall_not_mem.mpr fun b hb => hsel ⟨b, hb⟩
    rcases next_ahead hp.rotating.wellFormed hp.rotating.inside hop (hact due) hp.ahead with
      h | ⟨h, -⟩
    · exact absurd ⟨_, h⟩ hsel
    · rw [hnone]
      exact ⟨trivial, hrot, hpool, h⟩

end Turns

section Worker

variable {hyper : UriText Uri} {w : State Uri} {x y : Backend}

theorem taken_eq (hyper : UriText Uri) (w : State Uri) (e : Event) :
    taken w e = ((poolOp hyper w e).map (PoolOp.selected w.pool)).getD [] := by
  cases e with
  | request => rfl
  | message r =>
    cases hop : poolOp hyper w (.message r) with
    | none => rfl
    | some op =>
      have hget : op ≠ .get := by
        rintro rfl
        cases r <;>
          · obtain ⟨a, -, h⟩ := Option.map_eq_some_iff.mp hop
            cases h
      cases op <;> first | rfl | exact absurd rfl hget
  | complete k outcome =>
    cases hop : poolOp hyper w (.complete k outcome) with
    | none => rfl
    | some op =>
      obtain ⟨b, -, rfl⟩ := Option.map_eq_some_iff.mp hop
      rcases doneOp_cases Uri b outcome with h | h <;> rw [h] <;> rfl

def BothActive (x y : Backend) (w : State Uri) (_ : Event) : Prop :=
  x.isActive w.pool.heap = true ∧ y.isActive w.pool.heap = true

instance (x y : Backend) (w : State Uri) (e : Event) : Decidable (BothActive x y w e) :=
  inferInstanceAs (Decidable (_ ∧ _))

theorem event_due {due : Bool} (hw : Due x y due w.pool) (hne : x ≠ y) {e : Event}
    (hact : BothActive x y w e) :
    let vs := turnsOf x y (taken w e)
    turnSystem.Valid due vs ∧ Due x y (turnSystem.run due vs) (next hyper w e).pool := by
  rw [taken_eq hyper, pool_next]
  cases hop : poolOp hyper w e with
  | none => exact ⟨trivial, hw⟩
  | some op =>
    exact next_due hw hne (by rintro (_ | _); exacts [hact.2, hact.1]) (poolOp_isRemove hyper hop)

/-- Even load. In every run of a worker, as long as two backends are pooled and active, whatever
messages and finished requests come in between and whatever other backends come and go, the
requests that one of the two takes go to them by turns, so that neither is ever more than one
request ahead. -/
theorem load_alternates (hyper : UriText Uri) (h : BackendHeap Uri) (pre mid : List Event)
    (x y : Backend) (hne : x ≠ y)
    (hx : x ∈ ((workerSystem hyper).run (initial h) pre).pool.inner.backends)
    (hy : y ∈ ((workerSystem hyper).run (initial h) pre).pool.inner.backends)
    (hact : (workerSystem hyper).Always (BothActive x y)
      ((workerSystem hyper).run (initial h) pre) mid) :
    let bs := (workerSystem hyper).observe taken ((workerSystem hyper).run (initial h) pre) mid
    (turnsOf x y bs).IsChain (· ≠ ·) ∧ bs.count x ≤ bs.count y + 1 ∧
      bs.count y ≤ bs.count x + 1 := by
  intro bs
  have hrot := run_rotating hyper (w := initial h) (WorkerRouting.initial_serving h).rotating pre
  have hpooled : ∀ v, party x y v ∈
      ((workerSystem hyper).run (initial h) pre).pool.inner.backends := by
    rintro (_ | _)
    exacts [hy, hx]
  obtain ⟨due, hdue⟩ : ∃ due, Due x y due ((workerSystem hyper).run (initial h) pre).pool := by
    rcases ahead_total hy hx hne.symm with ha | ha
    · exact ⟨true, hrot, hpooled, ha⟩
    · exact ⟨false, hrot, hpooled, ha⟩
  obtain ⟨hvalid, -⟩ := TransitionSystems.simulation_run (T := workerSystem hyper)
    (U := turnSystem) (R := fun due w => Due x y due w.pool) (P := BothActive x y)
    (f := fun w e => turnsOf x y (taken w e))
    (fun _ _ _ hw he => event_due hw hne he) hdue hact
  have hlog : (workerSystem hyper).observe (fun w e => turnsOf x y (taken w e))
      ((workerSystem hyper).run (initial h) pre) mid = turnsOf x y bs :=
    ((workerSystem hyper).filterMap_observe _ _ _ _).symm
  rw [hlog] at hvalid
  have hcount := count_turnsOf hne bs
  refine ⟨valid_chain hvalid, ?_, ?_⟩
  · have htrue := valid_count hvalid true
    rwa [hcount, hcount] at htrue
  · have hfalse := valid_count hvalid false
    rwa [hcount, hcount] at hfalse

def twoTaken : List Event :=
  [.request, .message (.addServer "http://c"), .request, .request, .complete 0 .error,
    .message (.markServerDown "http://c"), .request, .request]

theorem load_alternates_third :
    let pre : List Event := [.message (.addServer "http://a"), .message (.addServer "http://b")]
    let w := (workerSystem plainText).run (initial blankHeap) pre
    let bs := (workerSystem plainText).observe taken w twoTaken
    (turnsOf ⟨0⟩ ⟨1⟩ bs).IsChain (· ≠ ·) ∧ bs.count ⟨0⟩ ≤ bs.count ⟨1⟩ + 1 ∧
      bs.count ⟨1⟩ ≤ bs.count ⟨0⟩ + 1 :=
  load_alternates plainText blankHeap _ twoTaken ⟨0⟩ ⟨1⟩ (by decide) (by decide) (by decide)
    (by decide)

example :
    let pre : List Event := [.message (.addServer "http://a"), .message (.addServer "http://b")]
    let w := (workerSystem plainText).run (initial blankHeap) pre
    (workerSystem plainText).observe taken w twoTaken = [⟨1⟩, ⟨2⟩, ⟨0⟩, ⟨1⟩, ⟨0⟩] := by decide

end Worker

section Counters

variable {hyper : UriText Uri} {w : State Uri} {p : Pool Uri} {b : Backend}
  {sent : List Backend} {done : List (Backend × Outcome)}

def finished (w : State Uri) : Event → List (Backend × Outcome)
  | .complete k outcome => (w.inFlight[k]?.map fun b => (b, outcome)).toList
  | .message _ | .request => []

def succeeded : Outcome → Bool
  | .response status => !Outcome.isServerError status
  | .error => false

def outcomesOf (b : Backend) (done : List (Backend × Outcome)) : List Outcome :=
  (done.filter fun d => d.1 = b).map Prod.snd

def tally (os : List Outcome) : Stats :=
  { failure := os.countP (fun o => !succeeded o) % 2 ^ 64
    success := os.countP succeeded % 2 ^ 64 }

theorem tally_concat (os : List Outcome) (o : Outcome) :
    tally (os ++ [o]) = if succeeded o then (tally os).incSuccess else (tally os).incFailure := by
  cases ho : succeeded o <;>
    simp [tally, Stats.incSuccess, Stats.incFailure, ho, List.countP_append, Nat.add_mod]

theorem outcomesOf_concat (d : Backend × Outcome) :
    outcomesOf b (done ++ [d]) = if d.1 = b then outcomesOf b done ++ [d.2]
      else outcomesOf b done := by
  by_cases hd : d.1 = b <;> simp [outcomesOf, hd]

def statsAfter (b : Backend) (st : Stats) : PoolOp Uri → Stats
  | .incSuccess c => if b = c then st.incSuccess else st
  | .incFailure c => if b = c then st.incFailure else st
  | _ => st

section Writes

variable (b c : Backend) (h : BackendHeap Uri)

omit [DecidableEq Uri]

theorem stats_markDown : (b.read (c.markDown h)).stats = (b.read h).stats :=
  h.modify_reading InnerBackend.stats (by intro; rfl) _ _
theorem stats_markActive : (b.read (c.markActive h)).stats = (b.read h).stats :=
  h.modify_reading InnerBackend.stats (by intro; rfl) _ _

theorem read_incSuccess :
    b.read (b.incSuccess h) = { b.read h with stats := (b.read h).stats.incSuccess } :=
  h.modify_cell_self _ _
theorem read_incFailure :
    b.read (b.incFailure h) = { b.read h with stats := (b.read h).stats.incFailure } :=
  h.modify_cell_self _ _

end Writes

theorem next_stats (hp : WellFormed p) (op : PoolOp Uri) (hb : b.inner < p.heap.next) :
    (b.read (PoolOp.next p op).heap).stats = statsAfter b (b.read p.heap).stats op := by
  cases op with
  | add s =>
    by_cases hs : ∃ b ∈ p.inner.backends, b.read p.heap = InnerBackend.new s
    · simp only [PoolOp.next, add_found hp hs, read_alloc hb, statsAfter]
    · simp only [PoolOp.next, add_missing hp hs, read_alloc hb, statsAfter]
  | get => rw [(next_get_heap p).1]; rfl
  | remove | find => rfl
  | markDown c => exact stats_markDown b c p.heap
  | markActive c => exact stats_markActive b c p.heap
  | incSuccess c =>
    by_cases hc : b = c
    · subst c
      rw [statsAfter, if_pos rfl]
      exact congrArg InnerBackend.stats (read_incSuccess b p.heap)
    · have hread : b.read (c.incSuccess p.heap) = b.read p.heap := read_other hc
      rw [statsAfter, if_neg hc]
      exact congrArg InnerBackend.stats hread
  | incFailure c =>
    by_cases hc : b = c
    · subst c
      rw [statsAfter, if_pos rfl]
      exact congrArg InnerBackend.stats (read_incFailure b p.heap)
    · have hread : b.read (c.incFailure p.heap) = b.read p.heap := read_other hc
      rw [statsAfter, if_neg hc]
      exact congrArg InnerBackend.stats hread

structure Accounted (sent : List Backend) (done : List (Backend × Outcome)) (w : State Uri)
    (b : Backend) : Prop where
  taken : sent.count b = (outcomesOf b done).length + w.inFlight.count b
  stats : (b.read w.pool.heap).stats = tally (outcomesOf b done)

/-- Every pooled backend is accounted for, and no request went elsewhere. -/
structure Ledger (sent : List Backend) (done : List (Backend × Outcome)) (w : State Uri) :
    Prop where
  wellFormed : WellFormed w.pool
  inFlight : ∀ b ∈ w.inFlight, b ∈ w.pool.inner.backends
  pooled : ∀ b ∈ w.pool.inner.backends, Accounted sent done w b
  elsewhere : ∀ b ∉ w.pool.inner.backends, b ∉ sent ∧ outcomesOf b done = []

omit [DecidableEq Uri] in
theorem initial_ledger (h : BackendHeap Uri) : Ledger [] [] (initial h) :=
  ⟨default_wellFormed h, fun _ hb => absurd hb List.not_mem_nil,
    fun _ hb => absurd hb List.not_mem_nil, fun _ _ => ⟨List.not_mem_nil, rfl⟩⟩

theorem Ledger.keep (hw : Ledger sent done w) {op : PoolOp Uri} (hop : op.isRemove = false)
    (hstats : ∀ (b : Backend) (st : Stats), statsAfter b st op = st) :
    Ledger sent done { w with pool := PoolOp.next w.pool op } := by
  have hgrow := next_prefix (p := w.pool) hop
  refine ⟨next_wellFormed hw.wellFormed op, fun b hb => hgrow.subset (hw.inFlight b hb), ?_,
    fun b hb => hw.elsewhere b fun hold => hb (hgrow.subset hold)⟩
  intro b hb
  by_cases hold : b ∈ w.pool.inner.backends
  · obtain ⟨htaken, hst⟩ := hw.pooled b hold
    refine ⟨htaken, ?_⟩
    rw [next_stats hw.wellFormed op (hw.wellFormed.allocated b hold), hstats]
    exact hst
  · -- a new backend, of which nothing was sent
    obtain ⟨hsent, hnone⟩ := hw.elsewhere b hold
    have hflight : b ∉ w.inFlight := fun h => hold (hw.inFlight b h)
    rcases mem_next hw.wellFormed hb with h | ⟨s, -, hread⟩
    · exact absurd h hold
    · constructor
      · rw [List.count_eq_zero_of_not_mem hsent, List.count_eq_zero_of_not_mem hflight, hnone]
        rfl
      · rw [hnone]
        exact congrArg InnerBackend.stats hread

omit [DecidableEq Uri] in
theorem request_ledger (hw : Ledger sent done w) :
    Ledger (sent ++ PoolOp.selected w.pool .get) done w.request := by
  cases hg : w.pool.get with
  | none =>
    have hsel : PoolOp.selected w.pool .get = [] := by simp [PoolOp.selected, hg]
    rw [hsel, List.append_nil, State.request, hg]
    exact hw
  | some r =>
    obtain ⟨q, a⟩ := r
    obtain ⟨hheap, hbackends⟩ := get_heap hg
    have hwf : WellFormed q :=
      ⟨by rw [hheap, hbackends]; exact hw.wellFormed.allocated,
        by rw [hbackends]; exact hw.wellFormed.nodup⟩
    cases a with
    | none =>
      have hsel : PoolOp.selected w.pool .get = [] := by simp [PoolOp.selected, hg]
      rw [hsel, List.append_nil, State.request, hg]
      refine ⟨hwf, ?_, ?_, ?_⟩ <;> simp only [hbackends]
      · exact hw.inFlight
      · intro b hb
        obtain ⟨htaken, hst⟩ := hw.pooled b hb
        exact ⟨htaken, by simp only [hheap]; exact hst⟩
      · exact hw.elsewhere
    | some a =>
      have hsel : PoolOp.selected w.pool .get = [a] := by simp [PoolOp.selected, hg]
      have ha : a ∈ w.pool.inner.backends := by
        rcases get_cases hg with ⟨k, c, -, hc, -, hr, -⟩ | ⟨-, hr, -⟩
        · rw [Option.some.inj hr]
          exact List.mem_of_getElem? hc
        · cases hr
      rw [hsel, State.request, hg]
      refine ⟨hwf, ?_, ?_, ?_⟩ <;> simp only [hbackends]
      · intro b hb
        rcases List.mem_append.mp hb with hb | hb
        · exact hw.inFlight b hb
        · rw [List.mem_singleton.mp hb]
          exact ha
      · intro b hb
        obtain ⟨htaken, hst⟩ := hw.pooled b hb
        refine ⟨?_, by simp only [hheap]; exact hst⟩
        simp only [List.count_append, htaken]
        omega
      · intro b hb
        obtain ⟨hsent, hnone⟩ := hw.elsewhere b hb
        refine ⟨?_, hnone⟩
        rw [List.mem_append, List.mem_singleton]
        rintro (h | rfl)
        · exact hsent h
        · exact hb ha

omit [DecidableEq Uri] in
theorem doneOp_eq (b : Backend) (outcome : Outcome) :
    (doneOp b outcome : PoolOp Uri) =
      if succeeded outcome then .incSuccess b else .incFailure b := by
  cases outcome with
  | error => rfl
  | response status => cases hs : Outcome.isServerError status <;> simp [doneOp, succeeded, hs]

theorem requestDone_backends (p : Pool Uri) (b : Backend) (outcome : Outcome) :
    (p.requestDone b outcome).inner.backends = p.inner.backends := by
  rw [requestDone_eq, doneOp_eq]
  cases succeeded outcome <;> rfl

theorem count_eraseIdx {bs : List Backend} {k : ℕ} (hk : k < bs.length) (b : Backend) :
    bs.count b = (bs.eraseIdx k).count b + if bs[k] = b then 1 else 0 := by
  rw [← (List.getElem_cons_eraseIdx_perm hk).count_eq b, List.count_cons]
  simp only [beq_iff_eq]

theorem complete_ledger (hw : Ledger sent done w) (k : ℕ) (outcome : Outcome) :
    Ledger sent (done ++ finished w (.complete k outcome)) (w.complete k outcome) := by
  simp only [finished, State.complete]
  cases hk : w.inFlight[k]? with
  | none =>
    rw [Option.map_none, Option.toList_none, List.append_nil]
    exact hw
  | some a =>
    have hin := List.mem_of_getElem? hk
    have ha : a ∈ w.pool.inner.backends := hw.inFlight a hin
    obtain ⟨hlt, rfl⟩ := List.getElem?_eq_some_iff.mp hk
    simp only [Option.map_some, Option.toList_some]
    refine ⟨?_, ?_, ?_, ?_⟩
    · simp only [requestDone_eq]
      exact next_wellFormed hw.wellFormed _
    · intro b hb
      simp only [requestDone_backends]
      exact hw.inFlight b (List.mem_of_mem_eraseIdx hb)
    · intro b hb
      simp only [requestDone_backends] at hb
      obtain ⟨htaken, hst⟩ := hw.pooled b hb
      have hread : (b.read (w.pool.requestDone w.inFlight[k] outcome).heap).stats =
          statsAfter b (b.read w.pool.heap).stats (doneOp w.inFlight[k] outcome : PoolOp Uri) := by
        rw [requestDone_eq]
        exact next_stats hw.wellFormed _ (hw.wellFormed.allocated b hb)
      constructor
      · rw [htaken, count_eraseIdx hlt b, outcomesOf_concat]
        by_cases hab : w.inFlight[k] = b
        · simp only [hab, if_true, List.length_append, List.length_singleton]
          omega
        · simp only [hab, if_false, Nat.add_zero]
      · simp only [hread, hst, doneOp_eq, outcomesOf_concat]
        by_cases hab : w.inFlight[k] = b
        · rw [if_pos hab, tally_concat]
          cases succeeded outcome <;> simp [statsAfter, hab]
        · rw [if_neg hab]
          cases succeeded outcome <;> simp [statsAfter, Ne.symm hab]
    · intro b hb
      simp only [requestDone_backends] at hb
      obtain ⟨hsent, hnone⟩ := hw.elsewhere b hb
      refine ⟨hsent, ?_⟩
      rw [outcomesOf_concat, if_neg, hnone]
      rintro rfl
      exact hb ha

theorem event_ledger (hyper : UriText Uri) (hw : Ledger sent done w) (e : Event) :
    Ledger (sent ++ taken w e) (done ++ finished w e) (next hyper w e) := by
  cases e with
  | request =>
    simp only [finished, List.append_nil]
    exact request_ledger hw
  | complete k outcome =>
    simp only [taken, List.append_nil]
    exact complete_ledger hw k outcome
  | message r =>
    simp only [taken, finished, List.append_nil]
    have hpool := pool_next hyper w (.message r)
    have hnext : next hyper w (.message r) = { w with pool := (next hyper w (.message r)).pool } :=
      rfl
    rw [hnext, hpool]
    cases hop : poolOp hyper w (.message r) with
    | none => exact hw
    | some op =>
      refine hw.keep (poolOp_isRemove hyper hop) ?_
      cases r <;>
        · obtain ⟨a, -, rfl⟩ := Option.map_eq_some_iff.mp hop
          exact fun _ _ => rfl

theorem run_ledger (hyper : UriText Uri) (hw : Ledger sent done w) (es : List Event) :
    Ledger (sent ++ (workerSystem hyper).observe taken w es)
      (done ++ (workerSystem hyper).observe finished w es) ((workerSystem hyper).run w es) := by
  induction es generalizing sent done w with
  | nil => simpa using hw
  | cons e es ih =>
    have hrest := ih (event_ledger hyper hw e)
    rw [List.append_assoc, List.append_assoc] at hrest
    exact hrest

/-- The counters of a worker are its books. In every run, for every pooled backend: each request
it took is answered or still in flight, its counters say how many of the answers were good and
how many were not, up to their width, and no request went to a backend outside the pool. -/
theorem counters_account (hyper : UriText Uri) (h : BackendHeap Uri) (es : List Event) :
    let w := (workerSystem hyper).run (initial h) es
    let sent := (workerSystem hyper).observe taken (initial h) es
    let done := (workerSystem hyper).observe finished (initial h) es
    (∀ b ∈ sent, b ∈ w.pool.inner.backends) ∧
    ∀ b ∈ w.pool.inner.backends,
      sent.count b = (outcomesOf b done).length + w.inFlight.count b ∧
      (b.read w.pool.heap).stats.success = (outcomesOf b done).countP succeeded % 2 ^ 64 ∧
      (b.read w.pool.heap).stats.failure =
        (outcomesOf b done).countP (fun o => !succeeded o) % 2 ^ 64 := by
  intro w sent done
  have hledger := run_ledger hyper (initial_ledger h) es
  rw [List.nil_append, List.nil_append] at hledger
  constructor
  · intro b hb
    by_contra hout
    exact (hledger.elsewhere b hout).1 hb
  · intro b hb
    obtain ⟨htaken, hst⟩ := hledger.pooled b hb
    exact ⟨htaken, congrArg Stats.success hst, congrArg Stats.failure hst⟩

end Counters

end WorkerLoad
