import Mathlib.Data.List.Basic
import Mathlib.Tactic.Common
/-!
# Lists of blocks

A list whose elements are each written out as a block of the same length.
Whole blocks can be counted, taken and dropped whole.
-/

namespace Blocks

variable {α β : Type*} {f : α → List β} {c : ℕ}

theorem length_flatMap (hf : ∀ a, (f a).length = c) (l : List α) :
    (l.flatMap f).length = c * l.length := by
  induction l with
  | nil => rfl
  | cons a l ih =>
    rw [List.flatMap_cons, List.length_append, hf, ih, List.length_cons, Nat.mul_succ, Nat.add_comm]

theorem drop_flatMap (hf : ∀ a, (f a).length = c) (l : List α) (j : ℕ) :
    (l.flatMap f).drop (c * j) = (l.drop j).flatMap f := by
  induction j generalizing l with
  | zero => rfl
  | succ j ih =>
    cases l with
    | nil => rw [List.flatMap_nil, List.drop_nil, List.drop_nil, List.flatMap_nil]
    | cons a l =>
      rw [List.flatMap_cons, Nat.mul_succ, Nat.add_comm, ← List.drop_drop, List.drop_left' (hf a), ih,
        List.drop_succ_cons]

theorem take_flatMap (hf : ∀ a, (f a).length = c) (l : List α) (j : ℕ) :
    (l.flatMap f).take (c * j) = (l.take j).flatMap f := by
  induction j generalizing l with
  | zero => rfl
  | succ j ih =>
    cases l with
    | nil => rw [List.flatMap_nil, List.take_nil, List.take_nil, List.flatMap_nil]
    | cons a l =>
      rw [List.flatMap_cons, Nat.mul_succ, Nat.add_comm, ← hf a, List.take_length_add_append, hf a, ih,
        List.take_succ_cons, List.flatMap_cons]

/-- An element, by its block and its place in it. -/
theorem getElem?_flatMap (hf : ∀ a, (f a).length = c) (l : List α) (j : ℕ) {i : ℕ} (hi : i < c) :
    (l.flatMap f)[c * j + i]? = l[j]?.bind fun a => (f a)[i]? := by
  rw [← List.getElem?_drop, drop_flatMap hf]
  have hhead : l[j]? = (l.drop j)[0]? := by rw [List.getElem?_drop, Nat.add_zero]
  rw [hhead]
  cases l.drop j with
  | nil => rfl
  | cons a t =>
    rw [List.flatMap_cons, List.getElem?_append_left (by rw [hf]; exact hi)]
    rfl

end Blocks
