import SoftMC.Dispatch.Queue
import SoftMC.Common.Clocked
/-!
# A dispatch that is not stalled for ever ends

While nothing is taken the counter runs down whether `dfi_ready` is high
or not; after 512 such cycles it is zero, and the next ready cycle takes
a word. So fairness of `dfi_ready` alone drains the queues.
-/

namespace SoftMC

open Clocked

namespace Exec

/-- The words left to take. -/
def pending (e : Exec) : ℕ := e.content0.length + e.content1.length

theorem pending_eq_zero {e : Exec} : e.pending = 0 ↔ e.content0 = [] ∧ e.content1 = [] := by
  rw [pending, Nat.add_eq_zero_iff, List.length_eq_zero_iff, List.length_eq_zero_iff]

variable {D : Option ℕ} {e : Exec} {i : In}

/-- A cycle without writes only takes. -/
theorem pending_next (hs : e.Sound) (hw0 : i.wr0 = none) (hw1 : i.wr1 = none) :
    e.pending = (e.taken0 i).toList.length + (e.taken1 i).toList.length +
      (Exec.next D e i).pending := by
  obtain ⟨h0, h1⟩ := contents_of_no_write (D := D) hs hw0 hw1
  have hl0 := congrArg List.length h0
  have hl1 := congrArg List.length h1
  rw [List.length_append] at hl0 hl1
  unfold pending
  omega

/-- Nothing is taken from queues that stay as long. -/
theorem taken_none_of_pending (hs : e.Sound) (hw0 : i.wr0 = none) (hw1 : i.wr1 = none)
    (h : (Exec.next D e i).pending = e.pending) : e.taken0 i = none ∧ e.taken1 i = none := by
  have hnext := pending_next (D := D) hs hw0 hw1
  constructor
  · cases h0 : e.taken0 i with
    | none => rfl
    | some w => rw [h0, Option.toList_some, List.length_singleton] at hnext; omega
  · cases h1 : e.taken1 i with
    | none => rfl
    | some w => rw [h1, Option.toList_some, List.length_singleton] at hnext; omega

/-- A cycle that takes nothing counts down by two. -/
theorem wait_next_of_none (h0 : e.taken0 i = none) (h1 : e.taken1 i = none) :
    (Exec.next D e i).iseq.disp.waitCyclesR.toNat = e.iseq.disp.waitCyclesR.toNat - 2 := by
  have hissue : e.iseq.disp.issue0 (e.dispIn i) = none ∧ e.iseq.disp.issue1 (e.dispIn i) = none := by
    unfold taken0 Dispatcher.taken0 at h0
    unfold taken1 Dispatcher.taken1 at h1
    cases hs : e.iseq.disp.instrSrcR
    · rw [hs] at h0 h1; exact ⟨h0, h1⟩
    · rw [hs] at h0 h1; exact ⟨h1, h0⟩
  change (Dispatcher.next false e.iseq.disp (e.dispIn i)).waitCyclesR.toNat = _
  rw [Dispatcher.toNat_waitCyclesR_next, hissue.1, hissue.2]
  rfl

/-- **A ready cycle at a counter of zero takes a word**, if there is one. -/
theorem Flowing.takes (h : e.Flowing) (hr : i.dfiReady = true)
    (hw : e.iseq.disp.waitCyclesR.toNat = 0) (hp : 0 < e.pending) :
    e.taken0 i ≠ none ∨ e.taken1 i ≠ none := by
  have hwait : e.iseq.disp.waitCyclesR ≤ 1#10 := by
    rw [BitVec.le_def, hw]; exact Nat.zero_le _
  have hvalid : e.iseq.instr0Reg.rValid1 = true ∨ e.iseq.instr1Reg.rValid1 = true := by
    by_contra hno
    rw [not_or, Bool.not_eq_true, Bool.not_eq_true] at hno
    have := pending_eq_zero.2 ⟨h.pipe0.valid_iff.1 hno.1, h.pipe1.valid_iff.1 hno.2⟩
    omega
  have htaken := Dispatcher.taken_of_ready (s := e.iseq.disp) (i := e.dispIn i) hr hwait hvalid
  rw [Option.isSome_iff_ne_none, Option.isSome_iff_ne_none] at htaken
  exact htaken

/-- **Fairness drains the queues**: a sequence of states in which the
dispatcher flows and nothing is written comes to hold nothing. -/
theorem exists_drained {e : ℕ → Exec} {i : ℕ → In} {a : ℕ}
    (hstep : ∀ n, a ≤ n → e (n + 1) = Exec.next D (e n) (i n))
    (hflow : ∀ n, a ≤ n → (e n).Flowing)
    (hwrite : ∀ n, a ≤ n → (i n).wr0 = none ∧ (i n).wr1 = none)
    (hready : ∀ n, ∃ m, n ≤ m ∧ (i m).dfiReady = true) :
    ∃ m, a ≤ m ∧ (e m).content0 = [] ∧ (e m).content1 = [] := by
  have hdec : ∀ n, a ≤ n → (e (n + 1)).pending ≤ (e n).pending := by
    intro n hn
    have hnext := pending_next (D := D) (hflow n hn).sound (hwrite n hn).1 (hwrite n hn).2
    rw [hstep n hn]
    omega
  suffices h : ∃ m, a ≤ m ∧ (e m).pending = 0 by
    obtain ⟨m, hm, hzero⟩ := h
    exact ⟨m, hm, pending_eq_zero.1 hzero⟩
  refine exists_zero_of_progress fun n hn hpos => ?_
  by_contra hno
  have hnever : ∀ m, n ≤ m → (e n).pending ≤ (e (m + 1)).pending := by
    intro m hm
    by_contra hlt
    exact hno ⟨m, hm, by omega⟩
  -- nothing is ever taken, so the counter runs down
  have hconst : ∀ k, (e (n + k)).pending = (e n).pending := by
    intro k
    induction k with
    | zero => rfl
    | succ k ih =>
      have h1 := hdec (n + k) (by omega)
      have h2 := hnever (n + k) (by omega)
      rw [← Nat.add_assoc]
      omega
  have hnone : ∀ k, (e (n + k)).taken0 (i (n + k)) = none ∧ (e (n + k)).taken1 (i (n + k)) = none := by
    intro k
    have hk : a ≤ n + k := by omega
    refine taken_none_of_pending (D := D) (hflow _ hk).sound (hwrite _ hk).1 (hwrite _ hk).2 ?_
    rw [← hstep _ hk, hconst k]
    exact hconst (k + 1)
  have hwait : ∀ k, (e (n + k)).iseq.disp.waitCyclesR.toNat =
      (e n).iseq.disp.waitCyclesR.toNat - 2 * k := by
    intro k
    induction k with
    | zero => rfl
    | succ k ih =>
      rw [← Nat.add_assoc, hstep (n + k) (by omega), wait_next_of_none (hnone k).1 (hnone k).2, ih]
      omega
  obtain ⟨m, hm, hr⟩ := hready (n + 512)
  obtain ⟨k, rfl⟩ := Nat.exists_eq_add_of_le (show n ≤ m by omega)
  have hw0 : (e (n + k)).iseq.disp.waitCyclesR.toNat = 0 := by
    have := (e n).iseq.disp.waitCyclesR.isLt
    rw [hwait k]
    omega
  rcases (hflow (n + k) (by omega)).takes hr hw0 (by rw [hconst k]; exact hpos) with h | h
  · exact h (hnone k).1
  · exact h (hnone k).2

end Exec

end SoftMC
