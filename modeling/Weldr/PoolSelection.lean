import Weldr.BackendPool
import Weldr.CyclicScan

/-! `InnerPool::get`: what a call returns, where it leaves the cursor, and when its loop
ends. The scan is the first hit of the active positions on the circle of the backends. -/
namespace PoolSelection

open BackendPool ImperativeCode CyclicScan

variable {Uri : Type}

theorem isDown_iff {b : Backend} {h : BackendHeap Uri} :
    b.isDown h = true ↔ ¬ b.isActive h = true := by
  simp only [Backend.isDown, Backend.isActive, decide_eq_true_eq]
  cases (b.read h).state <;> simp

def ActiveAt (h : BackendHeap Uri) (backends : List Backend) (i : ℕ) : Prop :=
  ∃ b, backends[i]? = some b ∧ b.isActive h = true

theorem exists_active_iff {h : BackendHeap Uri} {backends : List Backend} :
    (∃ b ∈ backends, b.isActive h = true) ↔ ∃ i < backends.length, ActiveAt h backends i := by
  constructor
  · rintro ⟨b, hb, ha⟩
    obtain ⟨i, hi, rfl⟩ := List.getElem_of_mem hb
    exact ⟨i, hi, _, List.getElem?_eq_getElem hi, ha⟩
  · rintro ⟨i, -, b, hb, ha⟩
    exact ⟨b, List.mem_of_getElem? hb, ha⟩

def cursor (n c : ℕ) : ℕ → ℕ
  | 0 => c
  | j + 1 => (c + (j + 1)) % n

theorem cursor_succ (n c j : ℕ) : (cursor n c j + 1) % n = (c + (j + 1)) % n := by
  cases j with
  | zero => rfl
  | succ j => exact mod_succ n c (j + 1)

theorem getBody_again {h : BackendHeap Uri} {backends : List Backend} {start c i : ℕ}
    (hi : (c + 1) % backends.length = i) (hlt : i < backends.length)
    (hd : ¬ ActiveAt h backends i) (hs : start ≠ i) :
    InnerPool.getBody h backends start c = .again i := by
  have hb : backends[i]? = some backends[i] := List.getElem?_eq_getElem hlt
  have hdown : backends[i].isDown h = true := isDown_iff.mpr fun ha => hd ⟨_, hb, ha⟩
  simp [InnerPool.getBody, hi, hb, hdown, hs]

theorem getBody_exhausted {h : BackendHeap Uri} {backends : List Backend} {c i : ℕ}
    (hi : (c + 1) % backends.length = i) (hlt : i < backends.length)
    (hd : ¬ ActiveAt h backends i) :
    InnerPool.getBody h backends i c = .finish (i, none) := by
  have hb : backends[i]? = some backends[i] := List.getElem?_eq_getElem hlt
  have hdown : backends[i].isDown h = true := isDown_iff.mpr fun ha => hd ⟨_, hb, ha⟩
  simp [InnerPool.getBody, hi, hb, hdown]

theorem getBody_active {h : BackendHeap Uri} {backends : List Backend} {start c i : ℕ}
    {b : Backend} (hi : (c + 1) % backends.length = i) (hb : backends[i]? = some b)
    (ha : b.isActive h = true) :
    InnerPool.getBody h backends start c = .finish (i, some b) := by
  have hup : b.isDown h = false := by
    rw [← Bool.not_eq_true, isDown_iff, not_not]; exact ha
  simp [InnerPool.getBody, hi, hb, hup]

section Scan

variable {h : BackendHeap Uri} {p : InnerPool}

theorem getBody_passes {k : ℕ} (hne : p.backends ≠ [])
    (hd : ∀ j, 0 < j → j < k → ¬ ActiveAt h p.backends ((p.lastUsed + j) % p.backends.length))
    (hs : ∀ j, 0 < j → j < k → (p.lastUsed + j) % p.backends.length ≠ p.lastUsed) :
    ∀ j < k - 1, InnerPool.getBody h p.backends p.lastUsed
      (cursor p.backends.length p.lastUsed j) =
        .again (cursor p.backends.length p.lastUsed (j + 1)) := by
  intro j hj
  exact getBody_again (cursor_succ _ _ j) (Nat.mod_lt _ (List.length_pos_of_ne_nil hne))
    (hd (j + 1) (by omega) (by omega)) (hs (j + 1) (by omega) (by omega)).symm

theorem runLoop_hit {k : ℕ} {b : Backend}
    (hk : FirstHit (ActiveAt h p.backends) p.backends.length p.lastUsed k)
    (hb : p.backends[(p.lastUsed + k) % p.backends.length]? = some b)
    (ha : b.isActive h = true) :
    runLoop (InnerPool.getBody h p.backends p.lastUsed) k p.lastUsed =
      some ((p.lastUsed + k) % p.backends.length, some b) := by
  have hpos := hk.positive
  have hne : p.backends ≠ [] := by
    intro he
    rw [he] at hb
    simp at hb
  -- a starting cursor inside the list is only met again by the last pass
  have hs : ∀ j, 0 < j → j < k →
      (p.lastUsed + j) % p.backends.length ≠ p.lastUsed := by
    intro j h0 hj
    have := hk.within
    by_cases hc : p.lastUsed < p.backends.length
    · rw [Ne, returns_iff hc h0 (by omega)]; omega
    · exact never_returns (List.length_pos_of_ne_nil hne) (not_lt.mp hc) j
  have hlast : (cursor p.backends.length p.lastUsed (k - 1) + 1) % p.backends.length =
      (p.lastUsed + k) % p.backends.length := by
    rw [cursor_succ, Nat.sub_add_cancel hpos]
  have hr := runLoop_finish (getBody_passes hne hk.missed hs) (getBody_active hlast hb ha)
  rwa [Nat.sub_add_cancel hpos] at hr

theorem getWithin_hit {k fuel : ℕ} {b : Backend} (hf : k ≤ fuel)
    (hk : FirstHit (ActiveAt h p.backends) p.backends.length p.lastUsed k)
    (hb : p.backends[(p.lastUsed + k) % p.backends.length]? = some b)
    (ha : b.isActive h = true) :
    p.getWithin h fuel =
      some ({ p with lastUsed := (p.lastUsed + k) % p.backends.length }, some b) := by
  have hne : p.backends ≠ [] := by
    intro he
    rw [he] at hb
    simp at hb
  simp [InnerPool.getWithin, hne, runLoop_le hf (runLoop_hit hk hb ha)]

theorem getWithin_empty (he : p.backends = []) (fuel : ℕ) :
    p.getWithin h fuel = some (p, none) := by
  simp [InnerPool.getWithin, he]

/-- With every backend down, a cursor inside the list comes back to its start. -/
theorem getWithin_exhausted {fuel : ℕ} (hf : p.backends.length ≤ fuel)
    (hc : p.lastUsed < p.backends.length) (hd : ∀ i, ¬ ActiveAt h p.backends i) :
    p.getWithin h fuel = some (p, none) := by
  have hpos : 0 < p.backends.length := Nat.zero_lt_of_lt hc
  have hne : p.backends ≠ [] := List.ne_nil_of_length_pos hpos
  have hs : ∀ j, 0 < j → j < p.backends.length →
      (p.lastUsed + j) % p.backends.length ≠ p.lastUsed := by
    intro j h0 hj
    rw [Ne, returns_iff hc h0 (le_of_lt hj)]
    omega
  have hlast : (cursor p.backends.length p.lastUsed (p.backends.length - 1) + 1)
      % p.backends.length = p.lastUsed := by
    rw [cursor_succ, Nat.sub_add_cancel hpos, Nat.add_mod_right, Nat.mod_eq_of_lt hc]
  have hr := runLoop_finish (getBody_passes hne (fun _ _ _ => hd _) hs)
    (getBody_exhausted hlast hc (hd _))
  rw [Nat.sub_add_cancel hpos] at hr
  have hloop : runLoop (InnerPool.getBody h p.backends p.lastUsed) fuel p.lastUsed =
      some (p.lastUsed, none) := runLoop_le hf hr
  simp [InnerPool.getWithin, hne, hloop]

/-- With every backend down, a cursor outside the list never comes back. -/
theorem getWithin_diverges (hne : p.backends ≠ []) (hc : p.backends.length ≤ p.lastUsed)
    (hd : ∀ i, ¬ ActiveAt h p.backends i) (fuel : ℕ) : p.getWithin h fuel = none := by
  have hpos := List.length_pos_of_ne_nil hne
  have hpass : ∀ j, InnerPool.getBody h p.backends p.lastUsed
      (cursor p.backends.length p.lastUsed j) =
        .again (cursor p.backends.length p.lastUsed (j + 1)) := by
    intro j
    exact getBody_again (cursor_succ _ _ j) (Nat.mod_lt _ hpos) (hd _)
      (never_returns hpos hc (j + 1)).symm
  have hr : runLoop (InnerPool.getBody h p.backends p.lastUsed) fuel p.lastUsed = none :=
    runLoop_diverges hpass fuel
  simp [InnerPool.getWithin, hne, hr]

theorem getWithin_cases (h : BackendHeap Uri) (p : InnerPool) :
    (p.backends = [] ∧ ∀ fuel, p.getWithin h fuel = some (p, none)) ∨
    (∃ k b, FirstHit (ActiveAt h p.backends) p.backends.length p.lastUsed k ∧
      p.backends[(p.lastUsed + k) % p.backends.length]? = some b ∧ b.isActive h = true ∧
      ∀ fuel, k ≤ fuel → p.getWithin h fuel =
        some ({ p with lastUsed := (p.lastUsed + k) % p.backends.length }, some b)) ∨
    ((∀ i, ¬ ActiveAt h p.backends i) ∧ p.lastUsed < p.backends.length ∧
      ∀ fuel, p.backends.length ≤ fuel → p.getWithin h fuel = some (p, none)) ∨
    (p.backends ≠ [] ∧ (∀ i, ¬ ActiveAt h p.backends i) ∧ p.backends.length ≤ p.lastUsed ∧
      ∀ fuel, p.getWithin h fuel = none) := by
  by_cases hne : p.backends = []
  · exact Or.inl ⟨hne, fun fuel => getWithin_empty hne fuel⟩
  by_cases ha : ∃ i < p.backends.length, ActiveAt h p.backends i
  · obtain ⟨i, hi, ha⟩ := ha
    obtain ⟨k, hk⟩ := exists_first_hit p.lastUsed hi ha
    obtain ⟨b, hb, hact⟩ := hk.hit
    exact Or.inr (Or.inl ⟨k, b, hk, hb, hact, fun fuel hf => getWithin_hit hf hk hb hact⟩)
  have hd : ∀ i, ¬ ActiveAt h p.backends i := by
    rintro i ⟨b, hb, hact⟩
    exact ha ⟨i, (List.getElem?_eq_some_iff.mp hb).1, b, hb, hact⟩
  by_cases hc : p.lastUsed < p.backends.length
  · exact Or.inr (Or.inr (Or.inl ⟨hd, hc, fun fuel hf => getWithin_exhausted hf hc hd⟩))
  · exact Or.inr (Or.inr (Or.inr ⟨hne, hd, not_lt.mp hc,
      getWithin_diverges hne (not_lt.mp hc) hd⟩))

theorem getWithin_unique {m n : ℕ} {q r : InnerPool × Option Backend}
    (hq : p.getWithin h m = some q) (hr : p.getWithin h n = some r) : q = r := by
  simp only [InnerPool.getWithin] at hq hr
  split at hq
  · simp_all
  · rename_i hemp
    simp only [hemp] at hr
    obtain ⟨v, hv, rfl⟩ := Option.map_eq_some_iff.mp hq
    obtain ⟨w, hw, rfl⟩ := Option.map_eq_some_iff.mp hr
    rw [runLoop_unique hv hw]

/-- A call that returns at all does so within one pass per backend. -/
theorem getWithin_complete {fuel : ℕ} {r : InnerPool × Option Backend}
    (hr : p.getWithin h fuel = some r) : p.getWithin h p.backends.length = some r := by
  have settled : ∀ {q}, p.getWithin h p.backends.length = some q →
      p.getWithin h p.backends.length = some r := by
    intro q hq
    rw [hq, getWithin_unique hq hr]
  rcases getWithin_cases h p with ⟨-, he⟩ | ⟨k, b, hk, -, -, he⟩ | ⟨-, -, he⟩ | ⟨-, -, -, he⟩
  · exact settled (he _)
  · exact settled (he _ hk.within)
  · exact settled (he _ le_rfl)
  · rw [he] at hr; cases hr

end Scan

section Pool

variable (p : Pool Uri)

def GetReturns : Prop := ∃ fuel r, p.inner.getWithin p.heap fuel = some r

def SelectableOrInside : Prop :=
  p.inner.backends = [] ∨ (∃ b ∈ p.inner.backends, b.isActive p.heap = true) ∨
    p.inner.lastUsed < p.inner.backends.length

theorem get_isSome_iff : p.get.isSome = true ↔ GetReturns p := by
  simp only [Pool.get, Option.isSome_map, Option.isSome_iff_exists, GetReturns]
  constructor
  · rintro ⟨r, hr⟩
    exact ⟨_, r, hr⟩
  · rintro ⟨fuel, r, hr⟩
    exact ⟨r, getWithin_complete hr⟩

theorem getReturns_iff : GetReturns p ↔ SelectableOrInside p := by
  rw [SelectableOrInside, exists_active_iff]
  rcases getWithin_cases p.heap p.inner with
    ⟨hemp, he⟩ | ⟨k, b, hk, hb, ha, he⟩ | ⟨hd, hc, he⟩ | ⟨hne, hd, hc, he⟩
  · exact ⟨fun _ => Or.inl hemp, fun _ => ⟨0, _, he 0⟩⟩
  · have hi : ∃ i < p.inner.backends.length, ActiveAt p.heap p.inner.backends i :=
      ⟨_, (List.getElem?_eq_some_iff.mp hb).1, b, hb, ha⟩
    exact ⟨fun _ => Or.inr (Or.inl hi), fun _ => ⟨k, _, he k le_rfl⟩⟩
  · exact ⟨fun _ => Or.inr (Or.inr hc), fun _ => ⟨_, _, he _ le_rfl⟩⟩
  · constructor
    · rintro ⟨fuel, r, hr⟩
      rw [he] at hr
      cases hr
    · rintro (hemp | ⟨i, -, hi⟩ | hin)
      · exact absurd hemp hne
      · exact absurd hi (hd i)
      · omega

/-- What a completed `get` did: it moved to the first active backend after the cursor, or
found none and left the pool as it was. -/
theorem get_cases {p q : Pool Uri} {r : Option Backend} (hg : p.get = some (q, r)) :
    (∃ k b, FirstHit (ActiveAt p.heap p.inner.backends) p.inner.backends.length
        p.inner.lastUsed k ∧
      p.inner.backends[(p.inner.lastUsed + k) % p.inner.backends.length]? = some b ∧
      b.isActive p.heap = true ∧ r = some b ∧
      q = { p with inner := { p.inner with
        lastUsed := (p.inner.lastUsed + k) % p.inner.backends.length } }) ∨
    ((∀ i, ¬ ActiveAt p.heap p.inner.backends i) ∧ r = none ∧ q = p) := by
  obtain ⟨⟨inner, c⟩, hw, he⟩ := Option.map_eq_some_iff.mp hg
  obtain ⟨rfl, rfl⟩ := Prod.mk.inj he
  rcases getWithin_cases p.heap p.inner with
    ⟨hemp, hx⟩ | ⟨k, b, hk, hb, ha, hx⟩ | ⟨hd, -, hx⟩ | ⟨-, -, -, hx⟩
  · rw [hx] at hw
    cases hw
    exact Or.inr ⟨fun i => by rintro ⟨b, hb, -⟩; simp [hemp] at hb, rfl, rfl⟩
  · rw [hx _ hk.within] at hw
    cases hw
    exact Or.inl ⟨k, b, hk, hb, ha, rfl, rfl⟩
  · rw [hx _ le_rfl] at hw
    cases hw
    exact Or.inr ⟨hd, rfl, rfl⟩
  · rw [hx] at hw
    cases hw

end Pool

end PoolSelection
