import Mathlib.Data.List.Basic

/-! A hash map whose keys may change under it. An entry keeps the hash computed when it was
inserted; a lookup brings the hash of its own key as it is now, and compares keys as they
are now, so what a lookup finds depends on both times. That an entry keeps its hash for ever is
an assumption about the map: one that hashes the stored keys again when it grows moves the
entries of changed keys. -/
namespace RecordedHashMap

structure Entry (H K V : Type*) where
  hash : H
  key : K
  value : V
  deriving DecidableEq, Repr

variable {H K V β : Type*} [DecidableEq H]

def Entry.Matches (hash : H) (same : K → Bool) (e : Entry H K V) : Prop :=
  e.hash = hash ∧ same e.key = true

instance (hash : H) (same : K → Bool) (e : Entry H K V) : Decidable (e.Matches hash same) :=
  inferInstanceAs (Decidable (_ ∧ _))

def lookup (hash : H) (same : K → Bool) : List (Entry H K V) → Option V
  | [] => none
  | e :: m => if e.Matches hash same then some e.value else lookup hash same m

/-- `entry(key).or_insert(default)`, then one use of the reference to the value. The insertion
hashes no stored key again, so the map is assumed not to rehash as it grows. -/
def withEntry (hash : H) (same : K → Bool) (key : K) (default : V) (f : V → V × β) :
    List (Entry H K V) → List (Entry H K V) × β
  | [] => ([⟨hash, key, (f default).1⟩], (f default).2)
  | e :: m =>
    if e.Matches hash same then ({ e with value := (f e.value).1 } :: m, (f e.value).2)
    else
      let r := withEntry hash same key default f m
      (e :: r.1, r.2)

variable {hash hash' : H} {same same' : K → Bool} {key : K} {default : V} {f : V → V × β}

theorem withEntry_result (m : List (Entry H K V)) :
    (withEntry hash same key default f m).2 =
      (f ((lookup hash same m).getD default)).2 := by
  induction m with
  | nil => rfl
  | cons e m ih =>
    by_cases he : e.Matches hash same
    · simp [withEntry, lookup, he]
    · simp [withEntry, lookup, he, ih]

theorem lookup_withEntry_self (hkey : same key = true) (m : List (Entry H K V)) :
    lookup hash same (withEntry hash same key default f m).1 =
      some (f ((lookup hash same m).getD default)).1 := by
  induction m with
  | nil => simp [withEntry, lookup, Entry.Matches, hkey]
  | cons e m ih =>
    by_cases he : e.Matches hash same
    · have he' : Entry.Matches hash same { e with value := (f e.value).1 } := he
      simp [withEntry, lookup, he, he']
    · simp [withEntry, lookup, he, ih]

/-- A lookup that no entry can share with the one written is not affected. -/
theorem lookup_withEntry_other (hkey : same key = true)
    (hapart : ∀ k, same k = true → same' k = true → hash ≠ hash') (m : List (Entry H K V)) :
    lookup hash' same' (withEntry hash same key default f m).1 = lookup hash' same' m := by
  have apart : ∀ e : Entry H K V, e.Matches hash same → ¬ e.Matches hash' same' := by
    rintro e ⟨rfl, h⟩ ⟨he, h'⟩
    exact hapart e.key h h' he
  induction m with
  | nil =>
    have hn := apart ⟨hash, key, (f default).1⟩ ⟨rfl, hkey⟩
    simp [withEntry, lookup, hn]
  | cons e m ih =>
    by_cases he : e.Matches hash same
    · have hn := apart e he
      have hn' : ¬ Entry.Matches hash' same' { e with value := (f e.value).1 } := hn
      simp [withEntry, lookup, he, hn, hn']
    · simp only [withEntry, he, if_false, lookup, ih]

theorem lookup_eq_none {m : List (Entry H K V)} :
    lookup hash same m = none ↔ ∀ e ∈ m, ¬ e.Matches hash same := by
  induction m with
  | nil => simp [lookup]
  | cons e m ih =>
    by_cases he : e.Matches hash same
    · simp [lookup, he]
    · simp [lookup, he, ih]

theorem lookup_of_notMem {m : List (Entry H K V)} (h : ∀ e ∈ m, same e.key ≠ true) :
    lookup hash same m = none := lookup_eq_none.mpr fun e he hm => h e he hm.2

theorem mem_keys_withEntry {m : List (Entry H K V)} {e : Entry H K V}
    (he : e ∈ (withEntry hash same key default f m).1) :
    e.key = key ∨ ∃ d ∈ m, e.key = d.key := by
  induction m with
  | nil =>
    rw [List.mem_singleton.mp he]
    exact Or.inl rfl
  | cons d m ih =>
    by_cases hd : d.Matches hash same
    · simp only [withEntry, hd, if_true] at he
      rcases List.mem_cons.mp he with rfl | he
      · exact Or.inr ⟨d, by simp, rfl⟩
      · exact Or.inr ⟨e, by simp [he], rfl⟩
    · simp only [withEntry, hd, if_false] at he
      rcases List.mem_cons.mp he with rfl | he
      · exact Or.inr ⟨e, by simp, rfl⟩
      · rcases ih he with h | ⟨c, hc, h⟩
        · exact Or.inl h
        · exact Or.inr ⟨c, by simp [hc], h⟩

/-- A use of the map leaves the keys as they are, or appends its own if it found no entry. -/
theorem keys_withEntry (m : List (Entry H K V)) :
    (withEntry hash same key default f m).1.map Entry.key =
      if (lookup hash same m).isSome then m.map Entry.key else m.map Entry.key ++ [key] := by
  induction m with
  | nil => rfl
  | cons e m ih =>
    by_cases he : e.Matches hash same
    · simp [withEntry, lookup, he]
    · simp only [withEntry, lookup, he, if_false, List.map_cons, ih]
      split <;> rfl

def slots (m : List (Entry H K V)) : List (K × H) := m.map fun e => (e.key, e.hash)

theorem slots_withEntry (m : List (Entry H K V)) :
    slots (withEntry hash same key default f m).1 =
      if (lookup hash same m).isSome then slots m else slots m ++ [(key, hash)] := by
  induction m with
  | nil => rfl
  | cons e m ih =>
    by_cases he : e.Matches hash same
    · simp [withEntry, lookup, slots, he]
    · rw [slots] at ih ⊢
      simp only [withEntry, lookup, he, if_false, List.map_cons, ih, slots]
      split <;> rfl

/-- No key is ever recorded twice with one hash. -/
theorem nodup_slots_withEntry {m : List (Entry H K V)} (hkey : same key = true)
    (hm : (slots m).Nodup) : (slots (withEntry hash same key default f m).1).Nodup := by
  rw [slots_withEntry]
  cases hl : lookup hash same m with
  | some v => exact hm
  | none =>
    refine List.nodup_append.mpr ⟨hm, List.pairwise_singleton _ _, ?_⟩
    rintro x hx _ hy rfl
    obtain ⟨e, he, rfl⟩ := List.mem_map.mp hx
    obtain ⟨hk, hh⟩ := Prod.mk.inj (List.mem_singleton.mp hy)
    exact lookup_eq_none.mp hl e he ⟨hh, by rw [hk]; exact hkey⟩

theorem lookup_congr {m : List (Entry H K V)} (h : ∀ e ∈ m, same e.key = same' e.key) :
    lookup hash same m = lookup hash same' m := by
  induction m with
  | nil => rfl
  | cons e m ih =>
    have hiff : e.Matches hash same ↔ e.Matches hash same' := by
      simp only [Entry.Matches, h e (by simp)]
    simp only [lookup, hiff, ih fun d hd => h d (by simp [hd])]

theorem withEntry_congr {m : List (Entry H K V)} (h : ∀ e ∈ m, same e.key = same' e.key) :
    withEntry hash same key default f m = withEntry hash same' key default f m := by
  induction m with
  | nil => rfl
  | cons e m ih =>
    have hiff : e.Matches hash same ↔ e.Matches hash same' := by
      simp only [Entry.Matches, h e (by simp)]
    have hrest := ih fun d hd => h d (by simp [hd])
    by_cases he : e.Matches hash same
    · simp [withEntry, he, hiff.mp he]
    · have hn : ¬ e.Matches hash same' := fun h => he (hiff.mpr h)
      simp [withEntry, he, hn, hrest]

end RecordedHashMap
