import SoftMC.Common.Clocked
/-!
# Countdowns

A countdown is loaded with a value, loses one with every tick while it is
not zero, and stays at zero until the next load. An alarm is a countdown
with a flag that the last tick raises and a clear takes back. Both are
stated of signals, so that any machine with such a pair of registers is an
instance; the file names none.
-/

namespace Clocked

/-- `count` is loaded where `load` says so and counts `tick` down
elsewhere. -/
structure Countdown (count : ℕ → ℕ) (load : ℕ → Option ℕ) (tick : ℕ → Bool) : Prop where
  loads : ∀ n k, load n = some k → count (n + 1) = k
  counts : ∀ n, load n = none → count (n + 1) = count n - (tick n).toNat

/-- The last tick of a countdown. -/
def fires (count : ℕ → ℕ) (tick : ℕ → Bool) (n : ℕ) : Bool := tick n && decide (count n = 1)

/-- **An alarm**: a countdown whose last tick raises `req`, which `clear`
takes back. -/
structure Alarm (count : ℕ → ℕ) (load : ℕ → Option ℕ) (tick req clear : ℕ → Bool) : Prop
    extends Countdown count load tick where
  latch : ∀ n, req (n + 1) = (!clear n && (req n || fires count tick n))

variable {count : ℕ → ℕ} {load : ℕ → Option ℕ} {tick req clear : ℕ → Bool} {u m k : ℕ}

/-- **What is left** where nothing was loaded: what was there, less the
ticks. -/
theorem Countdown.left (h : Countdown count load tick) (hno : ∀ j < m, load (u + j) = none) :
    count (u + m) = count u - tally tick u m := by
  induction m with
  | zero => rfl
  | succ m ih =>
    have hlast := h.counts (u + m) (hno m (Nat.lt_succ_self m))
    have hbefore := ih fun j hj => hno j (by omega)
    rw [tally_succ]
    change count (u + m + 1) = _
    omega

/-- What is left of a value since it was loaded. -/
theorem Countdown.left_of_load (h : Countdown count load tick) (hload : load u = some k)
    (hno : ∀ j < m, load (u + 1 + j) = none) : count (u + 1 + m) = k - tally tick (u + 1) m := by
  rw [h.left hno, h.loads u k hload]

/-- **When an alarm is up.** With no load and no clear from `u` on it is up
where it was up at `u`, or the count of `u` has run out since. -/
theorem Alarm.up_iff (h : Alarm count load tick req clear) (hno : ∀ j < m, load (u + j) = none)
    (hkeep : ∀ j < m, clear (u + j) = false) :
    req (u + m) = true ↔ req u = true ∨ (0 < count u ∧ count u ≤ tally tick u m) := by
  induction m with
  | zero =>
    rw [tally_zero, Nat.add_zero]
    constructor
    · exact Or.inl
    · rintro (hreq | ⟨hpos, hle⟩)
      · exact hreq
      · omega
  | succ m ih =>
    have hbefore := ih (fun j hj => hno j (by omega)) fun j hj => hkeep j (by omega)
    have hleft := h.left (m := m) fun j hj => hno j (by omega)
    change req (u + m + 1) = true ↔ _
    rw [h.latch, hkeep m (Nat.lt_succ_self m), Bool.not_false, Bool.true_and, Bool.or_eq_true,
      hbefore, tally_succ, or_assoc, fires, Bool.and_eq_true, decide_eq_true_iff, hleft]
    -- the last tick is the one at which a single count is left
    cases tick (u + m) <;>
      simp only [Bool.toNat_false, Bool.toNat_true, Bool.false_eq_true, false_and, or_false,
        true_and, Nat.add_zero]
    refine or_congr_right ?_
    omega

/-- **From a load on**, an alarm that is down is up with the last tick of
the value loaded. -/
theorem Alarm.up_of_load (h : Alarm count load tick req clear) (hload : load u = some k)
    (hpos : 0 < k) (hdown : req (u + 1) = false) (hno : ∀ j < m, load (u + 1 + j) = none)
    (hkeep : ∀ j < m, clear (u + 1 + j) = false) :
    req (u + 1 + m) = true ↔ k ≤ tally tick (u + 1) m := by
  rw [h.up_iff hno hkeep, hdown, h.loads u k hload]
  simp only [Bool.false_eq_true, false_or]
  exact and_iff_right hpos

/-- **An alarm never goes dead** that is loaded with something wherever it
is cleared. -/
theorem Alarm.alive_succ (h : Alarm count load tick req clear)
    (hpos : ∀ k, load u = some k → 0 < k) (hclear : clear u = true → load u ≠ none)
    (hu : load u ≠ none ∨ req u = true ∨ 0 < count u) :
    req (u + 1) = true ∨ 0 < count (u + 1) := by
  cases hl : load u with
  | some k => exact Or.inr (by rw [h.loads u k hl]; exact hpos k hl)
  | none =>
    have hkeep : clear u = false := by
      rw [← Bool.not_eq_true]
      exact fun hc => hclear hc hl
    have hcount := h.counts u hl
    rw [h.latch, hkeep, Bool.not_false, Bool.true_and, Bool.or_eq_true, fires, Bool.and_eq_true,
      decide_eq_true_iff]
    rcases hu with hu | hu | hu
    · exact absurd hl hu
    · exact Or.inl (Or.inl hu)
    · cases ht : tick u <;> rw [ht] at hcount
      · exact Or.inr (by rw [hcount]; exact hu)
      · rw [Bool.toNat_true] at hcount
        by_cases h1 : count u = 1
        · exact Or.inl (Or.inr ⟨rfl, h1⟩)
        · exact Or.inr (by omega)

/-! ## Flags -/

/-- A flag that `set` raises and `clear` takes back, where both are high
the set. -/
structure Flag (req set clear : ℕ → Bool) : Prop where
  step : ∀ n, req (n + 1) = (set n || (!clear n && req n))

/-- **A flag that is up behind a clear was set since.** -/
theorem Flag.exists_set {set : ℕ → Bool} (h : Flag req set clear) (hclear : clear u = true) {b : ℕ}
    (hub : u < b) (hreq : req b = true) : ∃ s, u ≤ s ∧ s < b ∧ set s = true := by
  induction b with
  | zero => omega
  | succ b ih =>
    rw [h.step, Bool.or_eq_true, Bool.and_eq_true, Bool.not_eq_true'] at hreq
    rcases hreq with hset | ⟨hkeep, hreq⟩
    · exact ⟨b, by omega, Nat.lt_succ_self b, hset⟩
    · have hlt : u < b := by
        rcases Nat.lt_or_eq_of_le (Nat.le_of_lt_succ hub) with hlt | rfl
        · exact hlt
        · rw [hclear] at hkeep; cases hkeep
      obtain ⟨s, hs, hsb, hset⟩ := ih hlt hreq
      exact ⟨s, hs, by omega, hset⟩

/-- The flag of an alarm, which a last tick does not raise in the cycle of
a clear. -/
theorem Alarm.flag (h : Alarm count load tick req clear) :
    Flag req (fun n => !clear n && fires count tick n) clear where
  step n := by
    rw [h.latch, Bool.and_or_distrib_left, Bool.or_comm]

/-- An alarm that is up behind a clear has run out since. -/
theorem Alarm.exists_fires (h : Alarm count load tick req clear) (hclear : clear u = true) {b : ℕ}
    (hub : u < b) (hreq : req b = true) : ∃ s, u < s ∧ s < b ∧ fires count tick s = true := by
  obtain ⟨s, hs, hsb, hset⟩ := h.flag.exists_set hclear hub hreq
  rw [Bool.and_eq_true, Bool.not_eq_true'] at hset
  refine ⟨s, ?_, hsb, hset.2⟩
  rcases Nat.lt_or_eq_of_le hs with hlt | rfl
  · exact hlt
  · rw [hclear] at hset; cases hset.1

end Clocked
