import SoftMC.Model.MaintCtrl
import SoftMC.Common.Clocked
/-!
# The prescaler at any parameters

The counter has room for the constant it is loaded with, because its width
is the logarithm of the constant, rounded up. It reloads at one and not at
zero, so that its period is the constant.
-/

namespace SoftMC

open Clocked

/-! ## The widths -/

/-- **A constant fits its counter**: it is below the number of values, and
loaded as it is. -/
structure Fits (div width : ℕ) : Prop where
  lt : div < 2 ^ width
  loaded : (BitVec.ofNat width div).toNat = div

theorem fits_clogb2 (div : ℕ) : Fits div (clogb2 (div + 1)) where
  lt := lt_two_pow_clogb2Loop div
  loaded := toNat_ofNat_clogb2 div

/-! ## One cycle -/

namespace Prescaler

variable {w div : ℕ} {s : Prescaler w}

/-- Until the PHY is ready the counter is loaded. -/
theorem next_of_low (hfits : div < 2 ^ w) : (s.next div false).maintPrescalerR.toNat = div :=
  (BitVec.toNat_ofNat div w).trans (Nat.mod_eq_of_lt hfits)

/-- **The counter** is loaded again at one, and counts down elsewhere. -/
theorem next_of_high (hfits : div < 2 ^ w) (hdiv : 1 ≤ div) (hpos : 1 ≤ s.maintPrescalerR.toNat) :
    (s.next div true).maintPrescalerR.toNat =
      if s.maintPrescalerR.toNat = 1 then div else s.maintPrescalerR.toNat - 1 := by
  have hone : (BitVec.ofNat w 1).toNat = 1 :=
    (BitVec.toNat_ofNat 1 w).trans (Nat.mod_eq_of_lt (by omega))
  have hiff : s.maintPrescalerTickNs = true ↔ s.maintPrescalerR.toNat = 1 := by
    rw [maintPrescalerTickNs, decide_eq_true_iff, ← BitVec.toNat_inj, hone]
  by_cases h1 : s.maintPrescalerR.toNat = 1
  · rw [if_pos h1, next, hiff.2 h1]
    exact (BitVec.toNat_ofNat div w).trans (Nat.mod_eq_of_lt hfits)
  · have htick : s.maintPrescalerTickNs = false := by
      rw [← Bool.not_eq_true, hiff]
      exact h1
    have hne : s.maintPrescalerR ≠ 0 := by
      intro hz
      rw [hz] at hpos
      exact absurd hpos (by simp)
    rw [if_neg h1, next, htick]
    simp only [Bool.not_true, Bool.or_self, Bool.false_eq_true, if_false, if_pos hne]
    rw [BitVec.toNat_sub_of_le (by rw [BitVec.le_def, hone]; exact hpos), hone]

/-- The tick follows the counter at one. -/
theorem tick_next (hfits : div < 2 ^ w) (hdiv : 1 ≤ div) (dfiInitComplete : Bool) :
    (s.next div dfiInitComplete).maintPrescalerTick = decide (s.maintPrescalerR.toNat = 1) := by
  have hone : (BitVec.ofNat w 1).toNat = 1 :=
    (BitVec.toNat_ofNat 1 w).trans (Nat.mod_eq_of_lt (by omega))
  change s.maintPrescalerTickNs = _
  rw [maintPrescalerTickNs]
  refine decide_eq_decide.2 ?_
  rw [← BitVec.toNat_inj, hone]

end Prescaler

/-! ## Over a run -/

/-- **A run of the prescaler** from any registers, in which
`dfi_init_complete` is low in cycle `low` and high ever after. -/
structure PrescalerRun where
  params : MaintParams
  start : Prescaler params.maintPrescalerWidth
  dfiInitComplete : ℕ → Bool
  low : ℕ
  isLow : dfiInitComplete low = false
  isHigh : ∀ n, low < n → dfiInitComplete n = true

namespace PrescalerRun

variable (r : PrescalerRun)

abbrev DIV : ℕ := r.params.maintPrescalerDiv

/-- The registers at the start of cycle `n`. -/
def state (n : ℕ) : Prescaler r.params.maintPrescalerWidth :=
  run (fun s dfi => s.next r.DIV dfi) r.start r.dfiInitComplete n

def tick (n : ℕ) : Bool := (r.state n).maintPrescalerTick

/-- **The prescaler is right**: the constants fit their counters, and from
the first tick on there is one tick in every `DIV` cycles. -/
structure Right : Prop where
  prescaler : Fits r.params.maintPrescalerDiv r.params.maintPrescalerWidth
  periodicRd : Fits r.params.periodicRdTimerDiv r.params.periodicRdTimerWidth
  zq : 1000 ≤ r.params.maintPrescalerPeriod → Fits r.params.zqTimerDiv r.params.zqTimerWidth
  first : ∃ t, r.low < t ∧ r.tick t = true
  one : ∀ t, r.low < t → r.tick t = true → ∀ v, t ≤ v → tally r.tick v r.DIV = 1

variable {r}

/-- **The count** since the PHY was ready. -/
theorem count_eq (j : ℕ) :
    (r.state (r.low + 1 + j)).maintPrescalerR.toNat = r.DIV - j % r.DIV := by
  have hfits : r.DIV < 2 ^ r.params.maintPrescalerWidth := (fits_clogb2 _).lt
  have hdiv : 1 ≤ r.DIV := r.params.div_pos
  induction j with
  | zero =>
    have hlow : r.state (r.low + 1) = (r.state r.low).next r.DIV false := by
      rw [state, run_succ, r.isLow]
      rfl
    rw [Nat.add_zero, hlow, Prescaler.next_of_low hfits, Nat.zero_mod, Nat.sub_zero]
  | succ j ih =>
    have hhigh : r.state (r.low + 1 + j + 1) = (r.state (r.low + 1 + j)).next r.DIV true := by
      rw [state, run_succ, r.isHigh (r.low + 1 + j) (by omega)]
      rfl
    have hlt := Nat.mod_lt j (show 0 < r.DIV from hdiv)
    have hmod : (j + 1) % r.DIV = (j % r.DIV + 1) % r.DIV := by rw [Nat.mod_add_mod]
    rw [← Nat.add_assoc, hhigh, Prescaler.next_of_high hfits hdiv (by omega), ih, hmod]
    by_cases hlast : j % r.DIV + 1 = r.DIV
    · rw [if_pos (by omega), hlast, Nat.mod_self, Nat.sub_zero]
    · have hgo : j % r.DIV + 1 < r.DIV := by omega
      rw [if_neg (by omega), Nat.mod_eq_of_lt hgo]
      omega

/-- **When it ticks**: with every multiple of the constant. -/
theorem tick_eq (j : ℕ) : r.tick (r.low + 1 + (j + 1)) = decide ((j + 1) % r.DIV = 0) := by
  have hfits : r.DIV < 2 ^ r.params.maintPrescalerWidth := (fits_clogb2 _).lt
  have hdiv : 1 ≤ r.DIV := r.params.div_pos
  have hlt := Nat.mod_lt j (show 0 < r.DIV from hdiv)
  have hmod : (j + 1) % r.DIV = (j % r.DIV + 1) % r.DIV := by rw [Nat.mod_add_mod]
  have hnext : r.tick (r.low + 1 + (j + 1)) =
      decide ((r.state (r.low + 1 + j)).maintPrescalerR.toNat = 1) :=
    Prescaler.tick_next hfits hdiv _
  rw [hnext, count_eq, hmod]
  refine decide_eq_decide.2 ?_
  by_cases hlast : j % r.DIV + 1 = r.DIV
  · rw [hlast, Nat.mod_self]
    omega
  · have hgo : j % r.DIV + 1 < r.DIV := by omega
    rw [Nat.mod_eq_of_lt hgo]
    omega

/-- Short of a whole period there is no tick. -/
theorem tally_short {k : ℕ} (hk : k < r.DIV) : tally r.tick (r.low + 1 + 1) k = 0 := by
  refine tally_eq_zero fun j hj => ?_
  rw [Nat.add_assoc (r.low + 1), Nat.add_comm 1 j, tick_eq, decide_eq_false_iff_not,
    Nat.mod_eq_of_lt (by omega)]
  omega

/-- **One tick in every period.** -/
theorem tally_tick {v : ℕ} (hv : r.low + 1 < v) : tally r.tick v r.DIV = 1 := by
  have hdiv : 1 ≤ r.DIV := r.params.div_pos
  have hperiodic : ∀ n, r.low + 1 + 1 ≤ n → r.tick (n + r.DIV) = r.tick n := by
    intro n hn
    obtain ⟨j, rfl⟩ := Nat.exists_eq_add_of_le hn
    have hsum : r.low + 1 + 1 + j + r.DIV = r.low + 1 + (j + r.DIV + 1) := by omega
    rw [hsum, tick_eq, Nat.add_assoc (r.low + 1), Nat.add_comm 1 j, tick_eq, Nat.add_right_comm,
      Nat.add_mod_right]
  obtain ⟨k, hk⟩ := Nat.exists_eq_add_of_le' hdiv
  have hlast : r.tick (r.low + 1 + 1 + k) = true := by
    rw [Nat.add_assoc (r.low + 1), Nat.add_comm 1 k, tick_eq, ← hk, Nat.mod_self]
    rfl
  rw [tally_periodic hperiodic hv, hk, tally_succ, tally_short (by omega), hlast]
  rfl

theorem right (r : PrescalerRun) : r.Right where
  prescaler := fits_clogb2 _
  periodicRd := fits_clogb2 _
  zq _ := fits_clogb2 _
  first := by
    obtain ⟨k, hk⟩ := Nat.exists_eq_add_of_le' (show 1 ≤ r.DIV from r.params.div_pos)
    refine ⟨r.low + 1 + (k + 1), by omega, ?_⟩
    rw [tick_eq, ← hk, Nat.mod_self]
    rfl
  one t ht htick v hv := by
    rcases Nat.lt_or_ge (r.low + 1) v with hlt | hle
    · exact tally_tick hlt
    · -- the tick of the cycle in which the PHY is ready is one from before
      have hvt : v = t := by omega
      have htl : t = r.low + 1 := by omega
      obtain ⟨k, hk⟩ := Nat.exists_eq_add_of_le' (show 1 ≤ r.DIV from r.params.div_pos)
      rw [hvt, hk, tally_succ', htick, htl, tally_short (by omega)]
      rfl

end PrescalerRun

/-- **As built**, `maint_ctrl` ticks once in every forty cycles. -/
theorem MaintCtrl.tally_tick (s : MaintCtrl) {dfiInitComplete : ℕ → Bool} {low v : ℕ}
    (hlow : dfiInitComplete low = false) (hhigh : ∀ n, low < n → dfiInitComplete n = true)
    (hv : low + 1 < v) :
    tally (fun n => (run (fun s dfi => s.next MaintParams.softMC.maintPrescalerDiv dfi) s
      dfiInitComplete n).maintPrescalerTick) v 40 = 1 := by
  let r : PrescalerRun :=
    { params := MaintParams.softMC, start := s, dfiInitComplete := dfiInitComplete,
      low := low, isLow := hlow, isHigh := hhigh }
  have hdiv : MaintParams.softMC.maintPrescalerDiv = 40 := by decide
  have hone : tally r.tick v MaintParams.softMC.maintPrescalerDiv = 1 := PrescalerRun.tally_tick hv
  rw [hdiv] at hone
  exact hone

end SoftMC
