import Mathlib.Data.List.Basic
import Mathlib.Data.List.Nodup

/-! Finite sets and maps that remember the order of insertion. A repetition cannot be built:
the operations carry the proof along, so what refines them need not prove it again. The keys
of a map are compared by what they fold to, as names are without their case; a key that is
stored again takes the place of the one it folds together with. -/
namespace OrderedCollections

section Sets

structure OrderedSet (α : Type*) where
  elems : List α
  nodup : elems.Nodup

variable {α : Type*}

def OrderedSet.empty : OrderedSet α := ⟨[], List.nodup_nil⟩

variable [DecidableEq α]

def OrderedSet.add (s : OrderedSet α) (a : α) : OrderedSet α × Bool :=
  if h : a ∈ s.elems then (s, false)
  else
    (⟨s.elems ++ [a], s.nodup.append (List.nodup_singleton a)
      (List.disjoint_singleton.mpr h)⟩, true)

def OrderedSet.remove (s : OrderedSet α) (a : α) : OrderedSet α :=
  ⟨s.elems.filter fun b => b ≠ a, s.nodup.filter _⟩

theorem OrderedSet.add_of_mem {s : OrderedSet α} {a : α} (h : a ∈ s.elems) :
    s.add a = (s, false) := dif_pos h

theorem OrderedSet.add_of_notMem {s : OrderedSet α} {a : α} (h : a ∉ s.elems) :
    (s.add a).1.elems = s.elems ++ [a] ∧ (s.add a).2 = true := by
  simp [OrderedSet.add, h]

/-- Filtering out one key of a list whose keys are distinct cuts out its one place. -/
theorem filter_key_split {β : Type*} {f : β → α} {pre post : List β} {b : β}
    (hn : ((pre ++ b :: post).map f).Nodup) :
    (pre ++ b :: post).filter (fun x => f x ≠ f b) = pre ++ post := by
  rw [List.map_append, List.map_cons] at hn
  obtain ⟨-, hpost, hdis⟩ := List.nodup_append.mp hn
  have hp : ∀ x ∈ pre, f x ≠ f b := fun x hx =>
    hdis _ (List.mem_map_of_mem hx) _ List.mem_cons_self
  have hq : ∀ x ∈ post, f x ≠ f b := fun x hx he =>
    (List.nodup_cons.mp hpost).1 (he ▸ List.mem_map_of_mem hx)
  rw [List.filter_append, List.filter_cons_of_neg (by simp),
    List.filter_eq_self.mpr (by simpa using hp), List.filter_eq_self.mpr (by simpa using hq)]

end Sets

section Maps

structure FoldedMap (K V : Type*) {F : Type*} (fold : K → F) where
  entries : List (K × V)
  distinct : (entries.map fun e => fold e.1).Nodup

variable {K V F : Type*} [DecidableEq F] {fold : K → F}

/-- Replaces the entry that `k` folds together with, or appends one. -/
def store (fold : K → F) (k : K) (v : V) : List (K × V) → List (K × V)
  | [] => [(k, v)]
  | e :: l => if fold e.1 = fold k then (k, v) :: l else e :: store fold k v l

theorem store_keys (k : K) (v : V) (l : List (K × V)) :
    (store fold k v l).map (fun e => fold e.1) =
      if fold k ∈ l.map fun e => fold e.1 then l.map fun e => fold e.1
      else (l.map fun e => fold e.1) ++ [fold k] := by
  induction l with
  | nil => rfl
  | cons e l ih =>
    by_cases he : fold e.1 = fold k
    · simp [store, he]
    · simp only [store, he, if_false, List.map_cons, ih, List.mem_cons, Ne.symm he, false_or]
      split <;> rfl

theorem store_distinct {k : K} {v : V} {l : List (K × V)}
    (h : (l.map fun e => fold e.1).Nodup) :
    ((store fold k v l).map fun e => fold e.1).Nodup := by
  rw [store_keys]
  split
  · exact h
  · rename_i hk
    refine h.append (List.nodup_singleton _) ?_
    intro x hx hs
    exact hk (List.mem_singleton.mp hs ▸ hx)

def find (fold : K → F) (k : K) (l : List (K × V)) : Option V :=
  (l.find? fun e => fold e.1 = fold k).map Prod.snd

theorem find_cons (k : K) (e : K × V) (l : List (K × V)) :
    find fold k (e :: l) = if fold e.1 = fold k then some e.2 else find fold k l := by
  by_cases he : fold e.1 = fold k <;> simp [find, he]

theorem find_store (k k' : K) (v : V) (l : List (K × V)) :
    find fold k' (store fold k v l) = if fold k' = fold k then some v else find fold k' l := by
  induction l with
  | nil => simp [store, find, eq_comm]
  | cons e l ih =>
    by_cases he : fold e.1 = fold k
    · simp only [store, he, if_true, find_cons, eq_comm]
      split <;> rfl
    · simp only [store, he, if_false, find_cons, ih]
      by_cases hk : fold k' = fold k
      · rw [hk]
        simp [he]
      · simp [hk]

theorem find_filter (k k' : K) (l : List (K × V)) :
    find fold k' (l.filter fun e => fold e.1 ≠ fold k) =
      if fold k' = fold k then none else find fold k' l := by
  induction l with
  | nil => simp [find]
  | cons e l ih =>
    by_cases he : fold e.1 = fold k
    · rw [List.filter_cons_of_neg (by simp [he]), ih, find_cons, he]
      by_cases hk : fold k' = fold k
      · simp [hk]
      · simp [hk, Ne.symm hk]
    · rw [List.filter_cons_of_pos (by simp [he]), find_cons, find_cons, ih]
      by_cases hk : fold k' = fold k
      · rw [hk]
        simp [he]
      · simp [hk]

theorem find_eq_none_iff {k : K} {l : List (K × V)} :
    find fold k l = none ↔ fold k ∉ l.map fun e => fold e.1 := by
  rw [find, Option.map_eq_none_iff, List.find?_eq_none]
  simp only [List.mem_map, not_exists, not_and, decide_eq_true_eq]

namespace FoldedMap

def empty : FoldedMap K V fold := ⟨[], List.nodup_nil⟩

def get (m : FoldedMap K V fold) (k : K) : Option V := find fold k m.entries

def insert (m : FoldedMap K V fold) (k : K) (v : V) : FoldedMap K V fold :=
  ⟨store fold k v m.entries, store_distinct m.distinct⟩

def remove (m : FoldedMap K V fold) (k : K) : FoldedMap K V fold :=
  ⟨m.entries.filter fun e => fold e.1 ≠ fold k, m.distinct.sublist (List.filter_sublist.map _)⟩

def extend (m n : FoldedMap K V fold) : FoldedMap K V fold :=
  n.entries.foldl (fun m e => m.insert e.1 e.2) m

def Has (m : FoldedMap K V fold) (k : K) : Prop := (m.get k).isSome

instance (m : FoldedMap K V fold) (k : K) : Decidable (m.Has k) :=
  inferInstanceAs (Decidable (_ = true))

variable (m n : FoldedMap K V fold) (k k' : K) (v : V)

@[simp] theorem get_empty : (empty : FoldedMap K V fold).get k = none := rfl

theorem get_insert :
    (m.insert k v).get k' = if fold k' = fold k then some v else m.get k' :=
  find_store k k' v m.entries

theorem get_remove : (m.remove k).get k' = if fold k' = fold k then none else m.get k' :=
  find_filter k k' m.entries

theorem get_extend : (m.extend n).get k = (n.get k).or (m.get k) := by
  obtain ⟨l, hl⟩ := n
  simp only [extend]
  change _ = (find fold k l).or _
  induction l generalizing m with
  | nil => rfl
  | cons e l ih =>
    obtain ⟨hout, hl⟩ := List.nodup_cons.mp hl
    rw [List.foldl_cons, ih _ hl, get_insert, find_cons]
    by_cases he : fold e.1 = fold k
    · have hnone : find fold k l = none := find_eq_none_iff.mpr (he ▸ hout)
      simp [he, hnone]
    · simp [he, Ne.symm he]

end FoldedMap

end Maps

end OrderedCollections
