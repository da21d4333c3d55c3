import Mathlib.Data.List.Basic
import Mathlib.Tactic.Common
/-!
# Dealing a list to two queues

A list is dealt alternately: its even positions to the first queue, its
odd positions to the second.
-/

namespace Clocked

variable {α : Type*}

/-- The even-indexed and the odd-indexed elements of a list, in order. -/
def deal : List α → List α × List α
  | [] => ([], [])
  | a :: l => (a :: (deal l).2, (deal l).1)

@[simp] theorem deal_nil : deal ([] : List α) = ([], []) := rfl

@[simp] theorem deal_cons (a : α) (l : List α) : deal (a :: l) = (a :: (deal l).2, (deal l).1) := rfl

/-- An element past the end goes to the queue whose turn it is. -/
theorem deal_concat (l : List α) (a : α) :
    deal (l ++ [a]) =
      if l.length % 2 = 0 then ((deal l).1 ++ [a], (deal l).2)
      else ((deal l).1, (deal l).2 ++ [a]) := by
  induction l with
  | nil => rfl
  | cons b l ih =>
    rw [List.cons_append, deal_cons, ih, deal_cons, List.length_cons]
    by_cases h : l.length % 2 = 0
    · rw [if_pos h, if_neg (by omega)]
    · rw [if_neg h, if_pos (by omega)]; rfl

/-- The first queue gets the odd one out. -/
theorem deal_length (l : List α) :
    (deal l).1.length = (l.length + 1) / 2 ∧ (deal l).2.length = l.length / 2 := by
  induction l with
  | nil => simp
  | cons a l ih =>
    obtain ⟨ih1, ih2⟩ := ih
    rw [deal_cons, List.length_cons, List.length_cons, ih1, ih2]
    exact ⟨by omega, rfl⟩

@[simp] theorem deal_fst_eq_nil {l : List α} : (deal l).1 = [] ↔ l = [] := by
  cases l <;> simp

/-- Nothing is lost or invented by the deal. -/
theorem mem_deal {l : List α} {a : α} : a ∈ (deal l).1 ∨ a ∈ (deal l).2 ↔ a ∈ l := by
  induction l with
  | nil => simp
  | cons b l ih => simp only [deal_cons, List.mem_cons, ← ih]; tauto

/-- What is counted in the list is counted in its two halves. -/
theorem countP_deal (f : α → Bool) (l : List α) :
    (deal l).1.countP f + (deal l).2.countP f = l.countP f := by
  induction l with
  | nil => rfl
  | cons a l ih =>
    have hl : (deal (a :: l)).1.countP f = (deal l).2.countP f + if f a then 1 else 0 :=
      List.countP_cons
    have hr : (deal (a :: l)).2.countP f = (deal l).1.countP f := rfl
    rw [hl, hr, List.countP_cons, ← ih]
    omega

end Clocked
