import Weldr.PoolSteps

/-! Fairness of the rotation on a pool that may grow and whose backends go down and come
back, but that loses none. What the cursor has passed since a selection is an order
between two positions, and it survives the list growing at its end. -/
namespace PoolFairness

open BackendPool TransitionSystems PoolSelection PoolSteps PoolTermination CyclicScan

variable {Uri : Type}

/-- Going round from the cursor of `p`, backend `z` is met before backend `x`. -/
def AheadOf (p : Pool Uri) (x z : Backend) : Prop :=
  ∃ i j, p.inner.backends[i]? = some x ∧ p.inner.backends[j]? = some z ∧
    Ahead i j p.inner.lastUsed

theorem getElem?_of_prefix {α : Type} {l m : List α} {i : ℕ} {a : α} (h : l <+: m)
    (hi : l[i]? = some a) : m[i]? = some a := by
  obtain ⟨t, rfl⟩ := h
  rw [List.getElem?_append_left (List.getElem?_eq_some_iff.mp hi).1, hi]

/-- A call that hands out `b` meets any active backend ahead of `x` no later than `x`, and
leaves every other backend of the pool ahead of `b` itself. -/
theorem get_ahead {p q : Pool Uri} {b : Backend} (hp : WellFormed p) (hc : CursorInside p)
    (hg : p.get = some (q, some b)) :
    b ∈ p.inner.backends ∧ b.isActive p.heap = true ∧
    (∀ x z, z.isActive p.heap = true → AheadOf p x z → b = z ∨ (AheadOf q x z ∧ b ≠ x)) ∧
    (∀ z ∈ p.inner.backends, z ≠ b → AheadOf q b z) := by
  rcases get_cases hg with ⟨k, c, hk, hb, ha, hr, rfl⟩ | ⟨-, hr, -⟩
  · obtain rfl := Option.some.inj hr
    have hlen := (List.getElem?_eq_some_iff.mp hb).1
    have hcur : p.inner.lastUsed < p.inner.backends.length := by
      rcases hc with h | h <;> omega
    refine ⟨List.mem_of_getElem? hb, ha, ?_, ?_⟩
    · rintro x z hz ⟨i, j, hi, hj, hij⟩
      have hjn := (List.getElem?_eq_some_iff.mp hj).1
      rcases ahead_first_hit hcur hjn hij hk ⟨z, hj, hz⟩ with he | ⟨hnext, hne⟩
      · rw [he, hj] at hb
        exact Or.inl (Option.some.inj hb).symm
      · refine Or.inr ⟨⟨i, j, hi, hj, hnext⟩, ?_⟩
        rintro rfl
        exact hne ((List.getElem?_inj hlen hp.nodup).mp (hb.trans hi.symm))
    · intro z hz hne
      obtain ⟨j, hj, rfl⟩ := List.getElem_of_mem hz
      refine ⟨_, j, hb, List.getElem?_eq_getElem hj, ahead_self ?_⟩
      rintro rfl
      exact hne (Option.some.inj ((List.getElem?_eq_getElem hj).symm.trans hb))
  · cases hr

section Runs

variable [DecidableEq Uri]

theorem next_prefix {p : Pool Uri} {op : PoolOp Uri} (hop : op.isRemove = false) :
    p.inner.backends <+: (PoolOp.next p op).inner.backends := by
  cases op with
  | add s =>
    simp only [PoolOp.next, Pool.add, InnerPool.add]
    split
    · exact List.prefix_refl _
    · exact List.prefix_append _ _
  | get => rw [(next_get_heap p).2]
  | remove => cases hop
  | find | markDown | markActive | incSuccess | incFailure => exact List.prefix_refl _

theorem next_lastUsed {p : Pool Uri} {op : PoolOp Uri} (hop : op ≠ .get) :
    (PoolOp.next p op).inner.lastUsed = p.inner.lastUsed := by
  cases op with
  | add s => simp only [PoolOp.next, Pool.add, InnerPool.add]; split <;> rfl
  | get => exact absurd rfl hop
  | remove | find | markDown | markActive | incSuccess | incFailure => rfl

theorem selected_get {p : Pool Uri} {b : Backend} (h : b ∈ PoolOp.selected p .get) :
    ∃ q, p.get = some (q, some b) ∧ PoolOp.next p .get = q := by
  simp only [PoolOp.selected, Option.mem_toList, Option.bind_eq_some_iff] at h
  obtain ⟨⟨q, r⟩, hg, hr⟩ := h
  simp only at hr
  subst hr
  exact ⟨q, hg, by simp [PoolOp.next, hg]⟩

/-- The rotation invariant over one operation: while `z` is active, either it is selected
or it stays ahead of `x` and `x` is not selected. -/
theorem next_ahead {p : Pool Uri} {op : PoolOp Uri} {x z : Backend} (hp : WellFormed p)
    (hc : CursorInside p) (hop : op.isRemove = false) (hz : z.isActive p.heap = true)
    (ha : AheadOf p x z) :
    z ∈ PoolOp.selected p op ∨
      (AheadOf (PoolOp.next p op) x z ∧ x ∉ PoolOp.selected p op) := by
  by_cases hsel : ∃ b, b ∈ PoolOp.selected p op
  · obtain ⟨b, hb⟩ := hsel
    cases op with
    | get =>
      obtain ⟨q, hg, hq⟩ := selected_get hb
      have hs : PoolOp.selected p .get = [b] := by simp [PoolOp.selected, hg]
      rw [hs, hq]
      rcases (get_ahead hp hc hg).2.2.1 x z hz ha with rfl | ⟨h, hne⟩
      · exact Or.inl (by simp)
      · exact Or.inr ⟨h, by simpa using hne.symm⟩
    | _ => cases hb
  · refine Or.inr ⟨?_, fun hx => hsel ⟨x, hx⟩⟩
    obtain ⟨i, j, hi, hj, hij⟩ := ha
    have grow := next_prefix (p := p) hop
    have keep : (PoolOp.next p op).inner.lastUsed = p.inner.lastUsed := by
      by_cases hget : op = .get
      · subst hget
        simp only [PoolOp.next]
        cases hg : p.get with
        | none => rfl
        | some r =>
          rcases get_cases hg with ⟨k, b, -, -, -, hr, -⟩ | ⟨-, -, hq⟩
          · exact absurd ⟨b, by simp [PoolOp.selected, hg, hr]⟩ hsel
          · simp [hq]
      · exact next_lastUsed hget
    exact ⟨i, j, getElem?_of_prefix grow hi, getElem?_of_prefix grow hj, by rw [keep]; exact hij⟩

structure Rotating (p : Pool Uri) : Prop where
  wellFormed : WellFormed p
  inside : CursorInside p

omit [DecidableEq Uri] in
theorem default_rotating (h : BackendHeap Uri) : Rotating (Pool.default h) :=
  ⟨default_wellFormed h, Or.inl rfl⟩

theorem next_rotating {p : Pool Uri} {op : PoolOp Uri} (hp : Rotating p)
    (hop : op.isRemove = false) : Rotating (PoolOp.next p op) :=
  ⟨next_wellFormed hp.wellFormed op, next_cursorInside hp.inside hop⟩

theorem run_rotating {p : Pool Uri} (hp : Rotating p) {ops : List (PoolOp Uri)}
    (hops : ∀ op ∈ ops, op.isRemove = false) : Rotating ((poolSystem Uri).run p ops) :=
  System.run_invariant (T := poolSystem Uri) (I := Rotating)
    (P := fun _ op => PoolOp.isRemove op = false) (fun _ _ => next_rotating) hp
    (System.always_of_forall (fun op hop _ => hops op hop) p)

/-- The rotation invariant over a run: a backend that is active all along is selected, or
is still ahead of `x`, which then was not selected either. -/
theorem run_ahead {x z : Backend} {ops : List (PoolOp Uri)} {p : Pool Uri} (hp : Rotating p)
    (hops : ∀ op ∈ ops, op.isRemove = false)
    (hz : ∀ q, q <+: ops → z.isActive ((poolSystem Uri).run p q).heap = true)
    (ha : AheadOf p x z) :
    z ∈ (poolSystem Uri).observe PoolOp.selected p ops ∨
      AheadOf ((poolSystem Uri).run p ops) x z := by
  induction ops generalizing p with
  | nil => exact Or.inr ha
  | cons op ops ih =>
    have hop : op.isRemove = false := hops op (by simp)
    rcases next_ahead hp.wellFormed hp.inside hop (hz [] (List.nil_prefix)) ha with h | ⟨h, -⟩
    · exact Or.inl (List.mem_append_left _ h)
    · have hrest := ih (next_rotating hp hop) (fun a hm => hops a (by simp [hm]))
        (fun q hq => hz (op :: q) (List.cons_prefix_cons.mpr ⟨rfl, hq⟩)) h
      rcases hrest with hs | hs
      · exact Or.inl (List.mem_append_right _ hs)
      · exact Or.inr hs

theorem selected_between {p : Pool Uri} (hp : Rotating p) {x y : Backend}
    {mid : List (PoolOp Uri)} (hmid : ∀ op ∈ mid, op.isRemove = false)
    (hfirst : x ∈ PoolOp.selected p .get)
    (hsecond : x ∈ PoolOp.selected ((poolSystem Uri).run p (.get :: mid)) .get)
    (hne : y ≠ x) (hy : y ∈ p.inner.backends)
    (hact : ∀ q, q <+: mid →
      y.isActive ((poolSystem Uri).run p (.get :: q)).heap = true) :
    y ∈ (poolSystem Uri).observe PoolOp.selected (PoolOp.next p .get) mid := by
  obtain ⟨q, hg, hq⟩ := selected_get hfirst
  have hstart : AheadOf (PoolOp.next p .get) x y := by
    rw [hq]
    exact (get_ahead hp.wellFormed hp.inside hg).2.2.2 y hy hne
  have hnext : Rotating (PoolOp.next p .get) := next_rotating hp rfl
  rcases run_ahead hnext hmid hact hstart with h | h
  · exact h
  · -- the second selection of `x` would have passed `y` on the way
    have hend := run_rotating hnext hmid
    obtain ⟨r, hg', -⟩ := selected_get hsecond
    rcases (get_ahead hend.wellFormed hend.inside hg').2.2.1 x y
      (hact mid (List.prefix_refl _)) h with he | ⟨-, he⟩
    · exact absurd he.symm hne
    · exact absurd rfl he

end Runs

section Window

def actives (p : Pool Uri) : List Backend := p.inner.backends.filter fun b => b.isActive p.heap

variable {p : Pool Uri}

theorem get_of_active (hc : CursorInside p) {b : Backend} (hb : b ∈ actives p) :
    ∃ q c, p.get = some (q, some c) := by
  obtain ⟨⟨q, r⟩, hg⟩ := Option.isSome_iff_exists.mp ((get_isSome_iff p).mpr hc.returns)
  rcases get_cases hg with ⟨k, c, -, -, -, rfl, -⟩ | ⟨hd, -, -⟩
  · exact ⟨q, c, hg⟩
  · obtain ⟨hmem, hact⟩ := List.mem_filter.mp hb
    obtain ⟨i, -, hi⟩ := exists_active_iff.mp ⟨b, hmem, hact⟩
    exact absurd hi (hd i)

variable [DecidableEq Uri]

def afterGets (p : Pool Uri) (n : ℕ) : Pool Uri :=
  (poolSystem Uri).run p (List.replicate n .get)

def selections (p : Pool Uri) (n : ℕ) : List Backend :=
  (poolSystem Uri).observe PoolOp.selected p (List.replicate n .get)

theorem afterGets_succ (p : Pool Uri) (n : ℕ) :
    afterGets p (n + 1) = PoolOp.next (afterGets p n) .get := by
  rw [afterGets, List.replicate_succ', System.run_append]
  rfl

theorem selections_succ (p : Pool Uri) (n : ℕ) :
    selections p (n + 1) = selections p n ++ PoolOp.selected (afterGets p n) .get := by
  rw [selections, List.replicate_succ', System.observe_append]
  simp [selections, afterGets]

theorem afterGets_backends (p : Pool Uri) (n : ℕ) :
    (afterGets p n).heap = p.heap ∧ (afterGets p n).inner.backends = p.inner.backends := by
  induction n with
  | zero => exact ⟨rfl, rfl⟩
  | succ n ih =>
    rw [afterGets_succ]
    obtain ⟨hh, hb⟩ := next_get_heap (afterGets p n)
    exact ⟨hh.trans ih.1, hb.trans ih.2⟩

theorem actives_afterGets (p : Pool Uri) (n : ℕ) : actives (afterGets p n) = actives p := by
  obtain ⟨hh, hb⟩ := afterGets_backends p n
  unfold actives
  rw [hh, hb]

theorem active_afterGets {z : Backend} (hz : z ∈ actives p) (n : ℕ) :
    z.isActive (afterGets p n).heap = true := by
  rw [(afterGets_backends p n).1]
  exact (List.mem_filter.mp hz).2

theorem exists_unselected (hp : Rotating p) {n : ℕ}
    (hn : (selections p n).length < (actives p).length) :
    ∃ z ∈ actives p, z ∉ selections p n := by
  by_contra hall
  push Not at hall
  have hsub := ((hp.wellFormed.nodup.filter _).subperm hall).length_le
  unfold actives at hn
  omega

/-- After `n` calls, no more than there are active backends, the selections are distinct
and every active backend not yet selected is ahead of every selected one. -/
structure Window (p : Pool Uri) (n : ℕ) : Prop where
  valid : (poolSystem Uri).Valid p (List.replicate n .get)
  length : (selections p n).length = n
  nodup : (selections p n).Nodup
  active : selections p n ⊆ actives p
  ahead : ∀ x ∈ selections p n, ∀ z ∈ actives p, z ∉ selections p n →
    AheadOf (afterGets p n) x z

/-- The next call selects a backend anew, for else one that is ahead of it came first. -/
theorem Window.selects_new (hp : Rotating p) {n : ℕ} (w : Window p n)
    (hn : n < (actives p).length) :
    ∃ q b, (afterGets p n).get = some (q, some b) ∧ b ∈ actives p ∧ b ∉ selections p n := by
  have hq : Rotating (afterGets p n) := run_rotating hp (by simp [PoolOp.isRemove])
  have hacts := actives_afterGets p n
  obtain ⟨z, hz, hzs⟩ := exists_unselected hp (n := n) (by rw [w.length]; exact hn)
  obtain ⟨q, b, hg⟩ := get_of_active hq.inside (hacts ▸ hz)
  obtain ⟨hb, hbact, hpass, -⟩ := get_ahead hq.wellFormed hq.inside hg
  refine ⟨q, b, hg, hacts ▸ List.mem_filter.mpr ⟨hb, hbact⟩, ?_⟩
  intro hbs
  rcases hpass b z (active_afterGets hz n) (w.ahead b hbs z hz hzs) with he | ⟨-, he⟩
  · exact hzs (he ▸ hbs)
  · exact he rfl

theorem Window.succ (hp : Rotating p) {n : ℕ} (w : Window p n) (hn : n < (actives p).length) :
    Window p (n + 1) := by
  have hq : Rotating (afterGets p n) := run_rotating hp (by simp [PoolOp.isRemove])
  have hb := (afterGets_backends p n).2
  obtain ⟨r, c, hg, hca, hnew⟩ := w.selects_new hp hn
  obtain ⟨-, -, hpass, hself⟩ := get_ahead hq.wellFormed hq.inside hg
  have hsel : selections p (n + 1) = selections p n ++ [c] := by
    rw [selections_succ]
    simp [PoolOp.selected, hg]
  have hnext : afterGets p (n + 1) = r := by
    rw [afterGets_succ]
    simp [PoolOp.next, hg]
  refine ⟨?_, ?_, ?_, ?_, ?_⟩
  · rw [List.replicate_succ']
    refine ((poolSystem Uri).always_append _ _ _ _).mpr ⟨w.valid, ?_, trivial⟩
    exact (get_isSome_iff _).mpr hq.inside.returns
  · rw [hsel, List.length_append, w.length, List.length_singleton]
  · rw [hsel]
    exact w.nodup.append (List.nodup_singleton c) (by simpa using hnew)
  · rw [hsel]
    exact List.append_subset.mpr ⟨w.active, by simpa using hca⟩
  · rw [hsel, hnext]
    intro x hx y hy hys
    have hyc : y ≠ c := fun he => hys (by simp [he])
    rcases List.mem_append.mp hx with hx | hx
    · have hold := w.ahead x hx y hy (fun h => hys (List.mem_append_left _ h))
      rcases hpass x y (active_afterGets hy n) hold with he | ⟨h, -⟩
      · exact absurd he.symm hyc
      · exact h
    · rw [List.mem_singleton.mp hx]
      exact hself y (hb ▸ (List.mem_filter.mp hy).1) hyc

theorem window_holds (hp : Rotating p) {n : ℕ} (hn : n ≤ (actives p).length) :
    Window p n := by
  induction n with
  | zero =>
    exact { valid := trivial
            length := rfl
            nodup := List.nodup_nil
            active := List.nil_subset _
            ahead := fun x hx => absurd hx List.not_mem_nil }
  | succ n ih => exact (ih (by omega)).succ hp (by omega)

theorem selections_perm (hp : Rotating p) :
    (selections p (actives p).length).Perm (actives p) := by
  have w := window_holds hp (le_refl (actives p).length)
  exact (w.nodup.subperm w.active).perm_of_length_le (le_of_eq w.length.symm)

end Window

/-- Fairness on runs from an empty pool without `remove`: between two selections of `x`
every other backend that was in the pool at the first one and active all along is selected;
and calls in a row, as many as there are active backends, return and select each once. -/
theorem round_robin_fair [DecidableEq Uri] (h : BackendHeap Uri) (pre : List (PoolOp Uri))
    (hpre : ∀ op ∈ pre, op.isRemove = false) :
    let p := (poolSystem Uri).run (Pool.default h) pre
    (∀ mid x y, (∀ op ∈ mid, op.isRemove = false) →
      PoolOp.selected p .get = [x] →
      PoolOp.selected ((poolSystem Uri).run p (.get :: mid)) .get = [x] →
      y ≠ x → y ∈ p.inner.backends →
      (∀ q, q <+: mid → y.isActive ((poolSystem Uri).run p (.get :: q)).heap = true) →
      y ∈ (poolSystem Uri).observe PoolOp.selected (PoolOp.next p .get) mid) ∧
    (poolSystem Uri).Valid p (List.replicate (actives p).length .get) ∧
    ((poolSystem Uri).observe PoolOp.selected p
      (List.replicate (actives p).length .get)).Perm (actives p) := by
  have hp := run_rotating (default_rotating h) hpre
  refine ⟨?_, (window_holds hp le_rfl).valid, selections_perm hp⟩
  intro mid x y hmid hfirst hsecond hne hy hact
  exact selected_between hp hmid (by rw [hfirst]; simp) (by rw [hsecond]; simp) hne hy hact

theorem round_robin_fair_pair :
    (⟨0⟩ : Backend) ∈ (poolSystem String).observe PoolOp.selected
      (PoolOp.next ((poolSystem String).run (Pool.default blankHeap)
        [.add ⟨"a", true⟩, .add ⟨"b", true⟩]) .get) [.add ⟨"c", true⟩, .get, .get] :=
  (round_robin_fair blankHeap [.add ⟨"a", true⟩, .add ⟨"b", true⟩] (by decide)).1
    [.add ⟨"c", true⟩, .get, .get] ⟨1⟩ ⟨0⟩ (by decide) (by decide) (by decide) (by decide)
    (by decide) fun q hq => by
      have hall : ∀ q ∈ [PoolOp.add ⟨"c", true⟩, .get, .get].inits, Backend.isActive ⟨0⟩
          ((poolSystem String).run ((poolSystem String).run (Pool.default blankHeap)
            [.add ⟨"a", true⟩, .add ⟨"b", true⟩]) (.get :: q)).heap = true := by decide
      exact hall q ((List.mem_inits q _).mpr hq)

end PoolFairness
