import Mathlib.Data.Nat.Init
import Mathlib.Logic.Function.Basic
import Mathlib.Order.Basic

/-! Shared mutable cells and loops. A reference is an address; every copy of it reads and
writes the same cell, and allocation hands out an address that no earlier reference has. A
`loop` is repeated passes of its body: a pass asks for another one or leaves with a value,
and running out of passes is `none`, so that termination is a statement about passes. -/
namespace ImperativeCode

section Cells

structure Heap (α : Type*) where
  cell : ℕ → α
  next : ℕ

namespace Heap

variable {α : Type*} (h : Heap α)

def alloc (a : α) : Heap α × ℕ :=
  ({ cell := Function.update h.cell h.next a, next := h.next + 1 }, h.next)

def modify (r : ℕ) (f : α → α) : Heap α :=
  { h with cell := Function.update h.cell r (f (h.cell r)) }

@[simp] theorem alloc_cell_new (a : α) : (h.alloc a).1.cell h.next = a := by simp [alloc]

theorem alloc_cell_old (a : α) {r : ℕ} (hr : r < h.next) :
    (h.alloc a).1.cell r = h.cell r := by
  simp [alloc, Function.update_of_ne (Nat.ne_of_lt hr)]

@[simp] theorem modify_cell_self (r : ℕ) (f : α → α) :
    (h.modify r f).cell r = f (h.cell r) := by simp [modify]

theorem modify_cell_other {r s : ℕ} (f : α → α) (hs : s ≠ r) :
    (h.modify r f).cell s = h.cell s := by simp [modify, hs]

theorem modify_reading {β : Type*} (g : α → β) {f : α → α} (hf : ∀ a, g (f a) = g a)
    (r s : ℕ) : g ((h.modify r f).cell s) = g (h.cell s) := by
  by_cases hs : s = r
  · subst s; simp [hf]
  · rw [modify_cell_other h f hs]

end Heap

end Cells

section Loops

inductive Iteration (σ α : Type*) where
  | again (s : σ)
  | finish (a : α)

variable {σ α : Type*}

def runLoop (body : σ → Iteration σ α) : ℕ → σ → Option α
  | 0, _ => none
  | n + 1, s =>
    match body s with
    | .again t => runLoop body n t
    | .finish a => some a

variable {body : σ → Iteration σ α}

theorem runLoop_add {m n : ℕ} {s : σ} {a : α} (h : runLoop body m s = some a) :
    runLoop body (m + n) s = some a := by
  induction m generalizing s with
  | zero => cases h
  | succ m ih =>
    rw [Nat.succ_add]
    simp only [runLoop] at h ⊢
    cases hb : body s with
    | again t => rw [hb] at h; exact ih h
    | finish b => rw [hb] at h; exact h

theorem runLoop_le {m n : ℕ} (hmn : m ≤ n) {s : σ} {a : α} (h : runLoop body m s = some a) :
    runLoop body n s = some a := by
  obtain ⟨k, rfl⟩ := Nat.exists_eq_add_of_le hmn
  exact runLoop_add h

theorem runLoop_unique {m n : ℕ} {s : σ} {a b : α}
    (ha : runLoop body m s = some a) (hb : runLoop body n s = some b) : a = b := by
  have hx := runLoop_le (Nat.le_max_left m n) ha
  have hy := runLoop_le (Nat.le_max_right m n) hb
  exact Option.some.inj (hx.symm.trans hy)

/-- Passes that each ask for another one lead along their states. -/
theorem runLoop_again {x : ℕ → σ} {k : ℕ} (h : ∀ j < k, body (x j) = .again (x (j + 1)))
    (n : ℕ) : runLoop body (k + n) (x 0) = runLoop body n (x k) := by
  induction k generalizing n with
  | zero => rw [Nat.zero_add]
  | succ k ih =>
    rw [Nat.succ_add_eq_add_succ, ih (fun j hj => h j (Nat.lt_succ_of_lt hj)), runLoop,
      h k (Nat.lt_succ_self k)]

theorem runLoop_finish {x : ℕ → σ} {k : ℕ} {a : α}
    (h : ∀ j < k, body (x j) = .again (x (j + 1))) (hk : body (x k) = .finish a) :
    runLoop body (k + 1) (x 0) = some a := by
  rw [runLoop_again h, runLoop, hk]

theorem runLoop_diverges {x : ℕ → σ} (h : ∀ j, body (x j) = .again (x (j + 1))) (n : ℕ) :
    runLoop body n (x 0) = none := by
  have hr := runLoop_again (fun j (_ : j < n) => h j) 0
  rwa [Nat.add_zero] at hr

end Loops

end ImperativeCode
