import Weldr.PoolSteps

/-! `get` as a reading of the backends in a circle, and what a removal does to it. `remove`
moves the backends behind the removed one up by a place and leaves the cursor where it is. -/
namespace PoolRotation

open BackendPool PoolSelection PoolSteps CyclicScan

variable {Uri : Type}

/-- The positions in the order in which a call looks at them, `last_used` the last. -/
def scanOrder (n lastUsed : ℕ) : List ℕ := (List.range n).rotate (lastUsed + 1)

def activeAt (p : Pool Uri) (i : ℕ) : Bool := p.inner.backends[i]?.any fun b => b.isActive p.heap

theorem activeAt_iff {p : Pool Uri} {i : ℕ} :
    activeAt p i = true ↔ ActiveAt p.heap p.inner.backends i := by
  simp only [activeAt, ActiveAt]
  cases p.inner.backends[i]? <;> simp

section Scan

variable {p : Pool Uri} {k : ℕ}
  (hk : FirstHit (ActiveAt p.heap p.inner.backends) p.inner.backends.length p.inner.lastUsed k)

include hk

theorem scanOrder_find : (scanOrder p.inner.backends.length p.inner.lastUsed).find? (activeAt p) =
    some ((p.inner.lastUsed + k) % p.inner.backends.length) := by
  have hpos : 0 < p.inner.backends.length := Nat.lt_of_lt_of_le hk.positive hk.within
  have hpoint : ∀ i, (List.range p.inner.backends.length)[i % p.inner.backends.length]? =
      some (i % p.inner.backends.length) := fun i => by simp [Nat.mod_lt i hpos]
  have hrange : FirstHit (fun i => ∃ a, (List.range p.inner.backends.length)[i]? = some a ∧
      activeAt p a = true) (List.range p.inner.backends.length).length p.inner.lastUsed k := by
    rw [List.length_range]
    refine ⟨hk.positive, hk.within, ⟨_, hpoint _, activeAt_iff.mpr hk.hit⟩, ?_⟩
    rintro j h0 hj ⟨a, ha, hact⟩
    obtain rfl := Option.some.inj ((hpoint _).symm.trans ha)
    exact hk.missed j h0 hj (activeAt_iff.mp hact)
  have hfind := find?_rotate_of_firstHit hrange
  rwa [List.length_range, hpoint] at hfind

theorem rotate_find :
    (p.inner.backends.rotate (p.inner.lastUsed + 1)).find? (fun b => b.isActive p.heap) =
      p.inner.backends[(p.inner.lastUsed + k) % p.inner.backends.length]? :=
  find?_rotate_of_firstHit hk

end Scan

theorem scanOrder_find_none {p : Pool Uri} (hd : ∀ i, ¬ ActiveAt p.heap p.inner.backends i) :
    (scanOrder p.inner.backends.length p.inner.lastUsed).find? (activeAt p) = none :=
  find?_rotate_eq_none.mpr fun i _ hact => hd i (activeAt_iff.mp hact)

/-- With its cursor inside the list, a call looks at no more backends than there are, returns
the first active one behind the cursor and leaves the cursor at it; it finds none exactly if
none is active, and then the cursor is where it was. The backends are untouched. -/
theorem get_first_active (p : Pool Uri) (hc : p.inner.lastUsed < p.inner.backends.length) :
    let n := p.inner.backends.length
    (p.inner.getWithin p.heap n).isSome ∧
    ∃ q r, p.get = some (q, r) ∧ q.contents = p.contents ∧
      (match (scanOrder n p.inner.lastUsed).find? (activeAt p) with
        | some i => q.inner.lastUsed = i ∧
            ∃ b, p.inner.backends[i]? = some b ∧ b.isActive p.heap ∧ r = some b
        | none => q.inner.lastUsed = p.inner.lastUsed ∧ r = none) ∧
      (r = none ↔ ∀ b ∈ p.inner.backends, b.isActive p.heap = false) := by
  intro n
  have hreturns : GetReturns p := (getReturns_iff p).mpr (Or.inr (Or.inr hc))
  obtain ⟨⟨q, r⟩, hget⟩ := Option.isSome_iff_exists.mp ((get_isSome_iff p).mpr hreturns)
  obtain ⟨fuel, w, hw⟩ := hreturns
  refine ⟨by rw [getWithin_complete hw]; rfl, q, r, hget, ?_⟩
  have hcontents : q.contents = p.contents := by
    obtain ⟨hh, hb⟩ := get_heap hget
    rw [Pool.contents, Pool.contents, hh, hb]
  refine ⟨hcontents, ?_⟩
  rcases get_cases hget with ⟨k, b, hk, hb, ha, rfl, rfl⟩ | ⟨hd, rfl, rfl⟩
  · rw [scanOrder_find hk]
    refine ⟨⟨rfl, b, hb, ha, rfl⟩, ?_⟩
    constructor
    · intro h
      cases h
    · intro h
      rw [h b (List.mem_of_getElem? hb)] at ha
      cases ha
  · rw [scanOrder_find_none hd]
    refine ⟨⟨rfl, rfl⟩, fun _ b hb => ?_, fun _ => rfl⟩
    obtain ⟨i, hi, rfl⟩ := List.getElem_of_mem hb
    exact Bool.eq_false_iff.mpr fun h => hd i ⟨_, List.getElem?_eq_getElem hi, h⟩

def threeServers : Pool String :=
  (poolSystem String).run (Pool.default blankHeap)
    [.add ⟨"a", true⟩, .add ⟨"b", true⟩, .add ⟨"c", true⟩, .markDown ⟨1⟩, .get]

theorem get_first_active_threeServers :
    ∃ q r, threeServers.get = some (q, r) ∧ q.contents = threeServers.contents :=
  let ⟨_, q, r, hget, hcontents, _⟩ := get_first_active threeServers (by decide)
  ⟨q, r, hget, hcontents⟩

section Removal

variable [DecidableEq Uri] {p : Pool Uri} {s : Server Uri}

def others (p : Pool Uri) (s : Server Uri) : List Backend :=
  (p.inner.backends.rotate (p.inner.lastUsed + 1)).filter fun b => b.server p.heap ≠ s

omit [DecidableEq Uri] in
theorem get_rotated {q : Pool Uri} {r : Option Backend} (hg : p.get = some (q, r)) :
    r = (p.inner.backends.rotate (p.inner.lastUsed + 1)).find? fun b => b.isActive p.heap := by
  rcases get_cases hg with ⟨k, b, hk, hb, -, rfl, -⟩ | ⟨hd, rfl, -⟩
  · rw [rotate_find hk, hb]
  · refine (find?_rotate_eq_none.mpr ?_).symm
    intro b hb hact
    obtain ⟨i, hi, rfl⟩ := List.getElem_of_mem hb
    exact hd i ⟨_, List.getElem?_eq_getElem hi, hact⟩

omit [DecidableEq Uri] in
theorem get_rotated_iff (ha : ∃ b ∈ p.inner.backends, b.isActive p.heap = true) (b : Backend) :
    (∃ q, p.get = some (q, some b)) ↔
      (p.inner.backends.rotate (p.inner.lastUsed + 1)).find? (fun b => b.isActive p.heap) =
        some b := by
  constructor
  · rintro ⟨q, hg⟩
    exact (get_rotated hg).symm
  · intro hfind
    have hreturns := (getReturns_iff p).mpr (Or.inr (Or.inl ha))
    obtain ⟨⟨q, r⟩, hg⟩ := Option.isSome_iff_exists.mp ((get_isSome_iff p).mpr hreturns)
    exact ⟨q, by rw [hg, get_rotated hg, hfind]⟩

def serversBefore (p : Pool Uri) : List (Server Uri) := p.servers.take (p.inner.lastUsed + 1)

theorem kept_before (hc : p.inner.lastUsed < p.inner.backends.length) :
    ((p.inner.backends.take (p.inner.lastUsed + 1)).filter
      fun b => b.server p.heap ≠ s).length + (serversBefore p).count s = p.inner.lastUsed + 1 := by
  have hlen : (p.inner.backends.take (p.inner.lastUsed + 1)).length = p.inner.lastUsed + 1 := by
    rw [List.length_take]
    omega
  have hcount : (serversBefore p).count s =
      (p.inner.backends.take (p.inner.lastUsed + 1)).countP
        fun b => ¬ decide (b.server p.heap ≠ s) = true := by
    rw [serversBefore, Pool.servers, ← List.map_take, List.count, List.countP_map]
    congr 1
    funext b
    by_cases hb : b.server p.heap = s <;> simp [hb]
  rw [hcount, ← List.countP_eq_length_filter, ← List.length_eq_countP_add_countP, hlen]

/-- What the scan after `remove` reads: what is left, but behind as many more backends as were
removed up to the cursor. -/
theorem remove_reading (hc : p.inner.lastUsed < p.inner.backends.length) :
    (p.remove s).inner.backends.rotate ((p.remove s).inner.lastUsed + 1) =
      (others p s).rotate ((serversBefore p).count s) :=
  rotate_filter (Nat.succ_le_of_lt hc) (kept_before hc)

theorem others_find {b : Backend} (hb : b.server p.heap ≠ s)
    (hfind : (p.inner.backends.rotate (p.inner.lastUsed + 1)).find?
      (fun b => b.isActive p.heap) = some b) :
    (others p s).find? (fun b => b.isActive p.heap) = some b := by
  obtain ⟨ha, xs, ys, hsplit, hxs⟩ := List.find?_eq_some_iff_append.mp hfind
  rw [others, hsplit, List.filter_append, List.filter_cons_of_pos (by simpa using hb)]
  refine List.find?_eq_some_iff_append.mpr ⟨ha, _, _, rfl, ?_⟩
  intro x hx
  exact hxs x (List.mem_of_mem_filter hx)

/-- If `get` would return `b`, it returns `b` after the removal of another server as well, if
and only if that server stands behind the cursor, or the first backend behind the cursor that
is left is down, or no other one that is left is active. -/
theorem get_after_remove_iff (hdist : p.servers.Nodup)
    (hc : p.inner.lastUsed < p.inner.backends.length) {b : Backend}
    (hget : ∃ q, p.get = some (q, some b)) (hb : b.server p.heap ≠ s) :
    (∃ q, (p.remove s).get = some (q, some b)) ↔
      s ∉ serversBefore p ∨ (∀ x ∈ (others p s).head?, ¬ x.isActive p.heap = true) ∨
        ∀ x ∈ (others p s).tail, ¬ x.isActive p.heap = true := by
  obtain ⟨q, hget⟩ := hget
  have hfind := others_find hb (get_rotated hget).symm
  have hact : ∃ c ∈ (p.remove s).inner.backends, c.isActive (p.remove s).heap = true := by
    have hbact : b.isActive p.heap = true :=
      List.find?_some (p := fun c : Backend => c.isActive p.heap) hfind
    refine ⟨b, ?_, hbact⟩
    have hin := List.mem_filter.mp (List.mem_of_find?_eq_some hfind)
    exact List.mem_filter.mpr ⟨List.mem_rotate.mp hin.1, hin.2⟩
  have hbackends : p.inner.backends.Nodup := hdist.of_map _
  have hothers : (others p s).Nodup := (List.nodup_rotate.mpr hbackends).filter _
  rw [get_rotated_iff hact, remove_reading hc]
  change ((others p s).rotate _).find? (fun b => b.isActive p.heap) = some b ↔ _
  by_cases hs : s ∈ serversBefore p
  · have hone : (serversBefore p).count s = 1 :=
      List.count_eq_one_of_mem (hdist.sublist (List.take_sublist _ _)) hs
    rw [hone, find?_rotate_one_iff hothers hfind]
    simp [hs]
  · rw [List.count_eq_zero_of_not_mem hs, List.rotate_zero]
    simp [hs, hfind]

theorem get_after_remove_down :
    ∃ q, ((PoolOp.next threeServers (.markDown ⟨0⟩)).remove ⟨"b", true⟩).get =
      some (q, some ⟨2⟩) :=
  (get_after_remove_iff (p := PoolOp.next threeServers (.markDown ⟨0⟩)) (s := ⟨"b", true⟩)
    (by decide) (by decide) (b := ⟨2⟩) ⟨_, rfl⟩ (by decide)).mpr (by decide)

theorem removal_skips_server :
    threeServers.servers.Nodup ∧
    threeServers.inner.lastUsed < threeServers.inner.backends.length ∧
    threeServers.get.map Prod.snd = some (some ⟨0⟩) ∧
    Backend.server ⟨0⟩ threeServers.heap ≠ ⟨"b", true⟩ ∧
    (threeServers.remove ⟨"b", true⟩).get.map Prod.snd = some (some ⟨2⟩) := by decide

end Removal

end PoolRotation
