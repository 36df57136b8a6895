import Mathlib.Data.List.Basic
import Mathlib.Data.List.Nodup
import Mathlib.Data.List.Perm.Subperm
import Mathlib.Data.List.Range
import Mathlib.Data.List.Rotate
import Mathlib.Data.Nat.Find
import Mathlib.Tactic.Common

/-! Walking the positions `0 .. n - 1` in a circle. `k` passes of the successor modulo
`n` from cursor `c` reach `(c + k) % n`, whether or not `c` is itself a position. -/
namespace CyclicScan

theorem mod_succ (n c k : ℕ) : ((c + k) % n + 1) % n = (c + (k + 1)) % n := by
  rw [Nat.mod_add_mod, Nat.add_assoc]

theorem returns_iff {n c k : ℕ} (hc : c < n) (hk : 0 < k) (hkn : k ≤ n) :
    (c + k) % n = c ↔ k = n := by
  constructor
  · intro h
    by_contra hne
    by_cases hw : c + k < n
    · rw [Nat.mod_eq_of_lt hw] at h; omega
    · rw [Nat.mod_eq_sub_mod (by omega), Nat.mod_eq_of_lt (by omega)] at h; omega
  · rintro rfl
    rw [Nat.add_mod_right, Nat.mod_eq_of_lt hc]

/-- A cursor outside the circle is never met again. -/
theorem never_returns {n c : ℕ} (hn : 0 < n) (hc : n ≤ c) (k : ℕ) : (c + k) % n ≠ c := by
  have := Nat.mod_lt (c + k) hn
  omega

theorem reaches {n i : ℕ} (c : ℕ) (hi : i < n) : ∃ k, 0 < k ∧ k ≤ n ∧ (c + k) % n = i := by
  have hc := Nat.mod_lt c (Nat.zero_lt_of_lt hi)
  by_cases h : c % n < i
  · refine ⟨i - c % n, by omega, by omega, ?_⟩
    rw [Nat.add_mod, Nat.mod_eq_of_lt (by omega : i - c % n < n),
      Nat.add_sub_cancel' (le_of_lt h), Nat.mod_eq_of_lt hi]
  · refine ⟨n - (c % n - i), by omega, by omega, ?_⟩
    rw [← Nat.mod_add_mod, show c % n + (n - (c % n - i)) = i + n by omega,
      Nat.add_mod_right, Nat.mod_eq_of_lt hi]

/-- The first position after cursor `c` that satisfies `p`, `k` passes away. -/
structure FirstHit (p : ℕ → Prop) (n c k : ℕ) : Prop where
  positive : 0 < k
  within : k ≤ n
  hit : p ((c + k) % n)
  missed : ∀ j, 0 < j → j < k → ¬ p ((c + j) % n)

theorem exists_first_hit {p : ℕ → Prop} {n i : ℕ} (c : ℕ) (hi : i < n) (hp : p i) :
    ∃ k, FirstHit p n c k := by
  classical
  obtain ⟨m, hm, hmn, he⟩ := reaches c hi
  have hx : ∃ k, 0 < k ∧ p ((c + k) % n) := ⟨m, hm, by rw [he]; exact hp⟩
  have hmin := Nat.find_spec hx
  refine ⟨Nat.find hx, hmin.1, ?_, hmin.2, ?_⟩
  · exact (Nat.find_min' hx ⟨hm, by rw [he]; exact hp⟩).trans hmn
  · intro j hj hlt hpj
    exact Nat.find_min hx hlt ⟨hj, hpj⟩

/-- Going round from cursor `c`, position `z` is met before position `x`. -/
def Ahead (x z c : ℕ) : Prop :=
  (x < z ∧ x ≤ c ∧ c < z) ∨ (z < x ∧ (x ≤ c ∨ c < z))

theorem ahead_self {x z : ℕ} (h : x ≠ z) : Ahead x z x := by
  unfold Ahead; omega

/-- A first hit that `z` could have been is `z`, or leaves `z` ahead of `x`. The circle
may have any size that holds both, so it may have grown since the last pass. -/
theorem ahead_first_hit {p : ℕ → Prop} {n c k x z : ℕ} (hc : c < n) (hz : z < n)
    (ha : Ahead x z c) (hk : FirstHit p n c k) (hp : p z) :
    (c + k) % n = z ∨ (Ahead x z ((c + k) % n) ∧ (c + k) % n ≠ x) := by
  obtain ⟨hpos, hkn, -, hm⟩ := hk
  have skip : ∀ j, 0 < j → j < k → (c + j) % n ≠ z :=
    fun j h0 h1 he => hm j h0 h1 (by rw [he]; exact hp)
  by_cases hw : c + k < n
  · rw [Nat.mod_eq_of_lt hw]
    have hpast : c < z → c + k ≤ z := by
      intro h
      by_contra hn
      exact skip (z - c) (by omega) (by omega) (by rw [Nat.mod_eq_of_lt (by omega)]; omega)
    unfold Ahead at *
    omega
  · rw [Nat.mod_eq_sub_mod (by omega), Nat.mod_eq_of_lt (by omega)]
    have hbefore : ¬ c < z := by
      intro h
      exact skip (z - c) (by omega) (by omega) (by rw [Nat.mod_eq_of_lt (by omega)]; omega)
    have hafter : z < c → c + k - n ≤ z := by
      intro h
      by_contra hn
      apply skip (z + n - c) (by omega) (by omega)
      rw [show c + (z + n - c) = z + n by omega, Nat.add_mod_right, Nat.mod_eq_of_lt hz]
    unfold Ahead at *
    omega

/-! Reading a list in a circle: the rotation that puts the element behind a cursor first.
Elements taken out of the circle are taken out of its reading, but where the reading starts
then moves with what was taken out before it. -/
section Rotations

variable {α : Type*} {p : α → Bool} {l : List α}

/-- The first hit on the circle is the first element of the reading that satisfies `p`. -/
theorem find?_rotate_of_firstHit {c k : ℕ}
    (hk : FirstHit (fun i => ∃ a, l[i]? = some a ∧ p a = true) l.length c k) :
    (l.rotate (c + 1)).find? p = l[(c + k) % l.length]? := by
  obtain ⟨a, ha, hpa⟩ := hk.hit
  have hpos := hk.positive
  have hkn := hk.within
  have hstart : ∀ j, 0 < j → (j - 1 + (c + 1)) % l.length = (c + j) % l.length := by
    intro j hj
    congr 1
    omega
  rw [ha, List.find?_eq_some_iff_getElem]
  refine ⟨hpa, k - 1, by rw [List.length_rotate]; omega, ?_, ?_⟩
  · apply Option.some.inj
    rw [← List.getElem?_eq_getElem, List.getElem?_rotate (by omega), hstart k hpos, ha]
  · intro j hj
    have hjl : j < (l.rotate (c + 1)).length := by rw [List.length_rotate]; omega
    have hget : l[(c + (j + 1)) % l.length]? = some (l.rotate (c + 1))[j] := by
      rw [← List.getElem?_eq_getElem hjl, List.getElem?_rotate (by omega),
        ← hstart (j + 1) (by omega), Nat.add_sub_cancel]
    have hmiss := hk.missed (j + 1) (by omega) (by omega)
    simp only [hget, Option.some.injEq, exists_eq_left', Bool.not_eq_true] at hmiss
    rw [hmiss]
    rfl

theorem find?_rotate_eq_none {k : ℕ} : (l.rotate k).find? p = none ↔ ∀ a ∈ l, ¬ p a = true := by
  simp [List.find?_eq_none]

/-- Filtering a reading is reading what is left from where the cursor then has to stand. -/
theorem filter_rotate {k : ℕ} (hk : k ≤ l.length) :
    (l.rotate k).filter p = (l.filter p).rotate ((l.take k).filter p).length := by
  have hparts : l.filter p = (l.take k).filter p ++ (l.drop k).filter p := by
    rw [← List.filter_append, List.take_append_drop]
  rw [List.rotate_eq_drop_append_take hk, List.filter_append, hparts,
    List.rotate_append_length_eq]

/-- A cursor that does not move while `m` elements before it are taken out skips `m` elements
of the reading of what is left. -/
theorem rotate_filter {k m : ℕ} (hk : k ≤ l.length)
    (hm : ((l.take k).filter p).length + m = k) :
    (l.filter p).rotate k = ((l.rotate k).filter p).rotate m := by
  rw [filter_rotate hk, List.rotate_rotate, hm]

/-- Reading from the second element on finds the same, unless the first one was found and
there is another one to find. -/
theorem find?_rotate_one_iff {a : α} (hl : l.Nodup) (ha : l.find? p = some a) :
    (l.rotate 1).find? p = some a ↔ (∀ x ∈ l.head?, ¬ p x = true) ∨ ∀ x ∈ l.tail, ¬ p x = true := by
  cases l with
  | nil => cases ha
  | cons x l =>
    have hx : x ∉ l := (List.nodup_cons.mp hl).1
    rw [List.rotate_cons_succ, List.rotate_zero, List.find?_append]
    by_cases hpx : p x = true
    · rw [List.find?_cons_of_pos hpx] at ha
      obtain rfl := Option.some.inj ha
      have hother : ∀ y, l.find? p = some y → y ≠ x := by
        rintro y hy rfl
        exact hx (List.mem_of_find?_eq_some hy)
      have hnone : (∀ y ∈ l, ¬ p y = true) ↔ l.find? p = none := by simp
      simp only [List.head?_cons, List.tail_cons, hnone]
      cases hf : l.find? p with
      | none => simp [hpx]
      | some y => simp [hpx, hother y hf]
    · rw [List.find?_cons_of_neg hpx] at ha
      simp [ha, hpx]

end Rotations

end CyclicScan
