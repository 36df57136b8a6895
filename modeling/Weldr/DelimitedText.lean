import Mathlib.Data.List.DropRight

/-! Lists written as text with a separator between the items and room around them. Reading two
such texts with a separator in between gives the items of the one and then of the other, and
room around a text does not count. -/
namespace DelimitedText

variable {α : Type*}

def trim (blank : α → Bool) (l : List α) : List α := (l.dropWhile blank).rdropWhile blank

/-- The items of a text: what stands between separators, without the room around it; what is
all room is no item. -/
def items [DecidableEq α] (separator blank : α → Bool) (l : List α) : List (List α) :=
  ((l.splitOnP separator).map (trim blank)).filter (· ≠ [])

theorem trim_concat {blank : α → Bool} (l : List α) {c : α} (hb : blank c = true) :
    trim blank (l ++ [c]) = trim blank l := by
  rw [trim, trim, List.dropWhile_append]
  split
  · rename_i hempty
    rw [List.isEmpty_iff.mp hempty]
    simp [hb]
  · exact List.rdropWhile_concat_pos _ _ _ hb

/-- What is put behind a text, if it is no separator, goes to the last of its parts. -/
theorem splitOnP_concat {separator : α → Bool} (l : List α) {c : α} (hs : separator c = false) :
    ∃ front last, l.splitOnP separator = front ++ [last] ∧
      (l ++ [c]).splitOnP separator = front ++ [last ++ [c]] := by
  induction l with
  | nil => exact ⟨[], [], List.splitOnP_nil, List.splitOnP_eq_singleton (by simpa using hs)⟩
  | cons a l ih =>
    obtain ⟨front, last, hl, hlc⟩ := ih
    simp only [List.cons_append, List.splitOnP_cons_eq_if_modifyHead, hl, hlc]
    by_cases ha : separator a = true
    · exact ⟨[] :: front, last, by simp [ha], by simp [ha]⟩
    · cases front with
      | nil => exact ⟨[], a :: last, by simp [ha], by simp [ha]⟩
      | cons first front => exact ⟨(a :: first) :: front, last, by simp [ha], by simp [ha]⟩

variable [DecidableEq α] {separator blank : α → Bool}

@[simp] theorem items_nil : items separator blank [] = [] := by
  simp [items, List.splitOnP_nil, trim]

theorem items_append (a b : List α) {c : α} (hc : separator c = true) :
    items separator blank (a ++ c :: b) = items separator blank a ++ items separator blank b := by
  simp only [items, List.splitOnP_append_cons a b hc, List.map_append, List.filter_append]

theorem items_cons_blank (l : List α) {c : α} (hb : blank c = true) (hs : separator c = false) :
    items separator blank (c :: l) = items separator blank l := by
  obtain ⟨x, xs, hx⟩ := List.exists_cons_of_ne_nil (List.splitOnP_ne_nil separator l)
  have hsplit : (c :: l).splitOnP separator = (c :: x) :: xs := by
    rw [List.splitOnP_cons_eq_if_modifyHead, hx]
    simp [hs]
  have htrim : trim blank (c :: x) = trim blank x := by
    rw [trim, List.dropWhile_cons_of_pos hb, trim]
  rw [items, items, hsplit, hx, List.map_cons, List.map_cons, htrim]

theorem items_concat_blank (l : List α) {c : α} (hb : blank c = true) (hs : separator c = false) :
    items separator blank (l ++ [c]) = items separator blank l := by
  obtain ⟨front, last, hl, hlc⟩ := splitOnP_concat l hs
  simp only [items, hl, hlc, List.map_append, List.map_cons, List.map_nil, trim_concat last hb]

theorem items_trim (hroom : ∀ c, blank c = true → separator c = false) (l : List α) :
    items separator blank (trim blank l) = items separator blank l := by
  have hfront : ∀ l, items separator blank (l.dropWhile blank) = items separator blank l := by
    intro l
    induction l with
    | nil => rfl
    | cons c l ih =>
      by_cases hc : blank c = true
      · rw [List.dropWhile_cons_of_pos hc, ih, items_cons_blank l hc (hroom c hc)]
      · rw [List.dropWhile_cons_of_neg hc]
  have hback : ∀ l, items separator blank (l.rdropWhile blank) = items separator blank l := by
    intro l
    induction l using List.reverseRecOn with
    | nil => rfl
    | append_singleton l c ih =>
      by_cases hc : blank c = true
      · rw [List.rdropWhile_concat_pos _ _ _ hc, ih, items_concat_blank l hc (hroom c hc)]
      · rw [List.rdropWhile_concat_neg _ _ _ hc]
  rw [trim, hback, hfront]

end DelimitedText
