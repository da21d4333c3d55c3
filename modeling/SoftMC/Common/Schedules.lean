import SoftMC.Common.Distances
import Mathlib.Data.List.Infix
/-!
# Programs on schedule

A machine that is given programs one after the other may pause between
two of them, but executes each to the cycle: from a start of its own, at
which slot `0` opens, every instruction at the time its schedule names.
How far off the next may be can then be read off the programs.
-/

namespace TwoSlot

variable {α : Type*} {W : α → Option ℕ}

/-- **The programs `S` on schedule**, one after the other, each from slot
`0` and no sooner than what is before it permits. -/
inductive OnSchedule (W : α → Option ℕ) : List (ℕ × α) → List (List α) → Prop
  | nil : OnSchedule W [] []
  | snoc {evs : List (ℕ × α)} {S : List (List α)} {T : ℕ} {l : List α} :
      OnSchedule W evs S → T % 2 = 0 → after W 0 evs ≤ T →
      OnSchedule W (evs ++ schedule W T l) (S ++ [l])

namespace OnSchedule

variable {evs : List (ℕ × α)} {S : List (List α)}

/-- What is executed is the programs. -/
theorem map_snd (h : OnSchedule W evs S) : evs.map Prod.snd = S.flatten := by
  induction h with
  | nil => rfl
  | snoc _ _ _ ih => simp [ih]

/-- The last of a schedule ends it. -/
theorem getLast?_schedule (T : ℕ) {l : List α} (hl : l ≠ []) :
    ∃ e, (schedule W T l).getLast? = some e ∧ l.getLast? = some e.2 ∧
      e.1 + cost W e.2 = T + total W l := by
  induction l generalizing T with
  | nil => exact absurd rfl hl
  | cons a l ih =>
    rcases List.eq_nil_or_concat l with rfl | ⟨l', b, rfl⟩
    · exact ⟨(T, a), rfl, rfl, by simp⟩
    · obtain ⟨e, he, hlast, hsum⟩ := ih (T + cost W a) (by simp)
      refine ⟨e, ?_, ?_, ?_⟩
      · rw [schedule_cons, List.getLast?_cons, he]
        rfl
      · rw [List.getLast?_cons, hlast]
        rfl
      · rw [hsum, total_cons, Nat.add_assoc]

/-- **How the last program ends**: its last instruction is due an even
time and the length of the program before its successor. -/
theorem exists_last (h : OnSchedule W evs S) {l : List α} (hS : S.getLast? = some l)
    (hl : l ≠ []) :
    ∃ T e, T % 2 = 0 ∧ evs.getLast? = some e ∧ l.getLast? = some e.2 ∧
      e.1 + cost W e.2 = T + total W l := by
  cases h with
  | nil => cases hS
  | @snoc evs S T l' _ hT _ =>
    rw [List.getLast?_append, List.getLast?_singleton] at hS
    obtain rfl : l' = l := Option.some.inj hS
    obtain ⟨e, he, hlast, hsum⟩ := getLast?_schedule (W := W) T hl
    refine ⟨T, e, hT, ?_, hlast, hsum⟩
    rw [List.getLast?_append, he]
    rfl

end OnSchedule

end TwoSlot
