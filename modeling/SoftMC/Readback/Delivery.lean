import SoftMC.Readback.Framing
/-!
# The sender makes progress

As long as the channel goes on reading, every pair of words that reaches
the read-back FIFO is sent in a transaction of its own.
-/

namespace SoftMC

open Clocked

namespace FrameRun

variable (r : FrameRun)

/-- The words that have reached the FIFO before cycle `n`. -/
def arrived (n : ℕ) : List RdWord :=
  r.start.fifo ++ trace (fun k => (r.state k).written (r.wave k) r.depth) n

variable {r}

/-- They are taken in order. -/
theorem arrived_eq (n : ℕ) : r.arrived n = r.popped n ++ (r.state n).fifo :=
  trace_conserved (q := fun k => (r.state k).fifo) (fun _ => Sender.fifo_next _) n

theorem length_arrived_mono {n k : ℕ} (h : n ≤ k) : (r.arrived n).length ≤ (r.arrived k).length := by
  obtain ⟨j, rfl⟩ := Nat.exists_eq_add_of_le h
  rw [arrived, arrived, trace_add, List.length_append, List.length_append, List.length_append]
  omega

/-- A transaction that has ended has taken two of them. -/
theorem two_mul_ended_le (n : ℕ) : 2 * ended r.chnlTx n ≤ (r.popped n).length := by
  obtain ⟨hle, -, -⟩ := count_framed (r := r) n
  have hcount := count_add_unsent (r := r) n
  omega

/-- A busy sender sends a beat as soon as the channel reads, … -/
theorem count_succ_of_busy {n : ℕ} (hs : (r.state n).tx.recvState = .busy) :
    r.count (n + 1) = r.count n + (r.wave n).chnlTxDataRen.toNat := by
  rw [count_succ, presented_eq, Sender.counted, if_pos hs]
  cases (r.wave n).chnlTxDataRen <;> rfl

theorem exists_beat_of_busy {n d : ℕ} (hs : (r.state n).tx.recvState = .busy)
    (hren : (r.wave (n + d)).chnlTxDataRen = true) :
    ∃ j, n ≤ j ∧ r.count n < r.count (j + 1) := by
  induction d generalizing n with
  | zero =>
    have hread : (r.wave n).chnlTxDataRen = true := hren
    refine ⟨n, Nat.le_refl n, ?_⟩
    rw [count_succ_of_busy hs, hread]
    exact Nat.lt_succ_self _
  | succ d ih =>
    have hcount := count_succ_of_busy hs
    cases hn : (r.wave n).chnlTxDataRen with
    | true =>
      rw [hn] at hcount
      exact ⟨n, Nat.le_refl n, by rw [hcount]; exact Nat.lt_succ_self _⟩
    | false =>
      have hwait : (r.state (n + 1)).tx.recvState = .busy := by
        have hnext := Sender.tx_next_busy (D := r.depth) (i := r.wave n) hs
        rw [hn, if_neg Bool.false_ne_true] at hnext
        change (Sender.next r.depth (r.state n) (r.wave n)).tx.recvState = _
        rw [hnext]
        exact hs
      have hcycle : n + (d + 1) = n + 1 + d := by omega
      rw [hn] at hcount
      rw [hcycle] at hren
      obtain ⟨j, hj, hlt⟩ := ih hwait hren
      exact ⟨j, by omega, by rwa [hcount] at hlt⟩

/-- … and an idle one takes the next word, if there is one. -/
theorem exists_beat (hren : ∀ n, ∃ k, n ≤ k ∧ (r.wave k).chnlTxDataRen = true) {n : ℕ}
    (h : r.count n < 4 * (r.arrived n).length) : ∃ j, n ≤ j ∧ r.count n < r.count (j + 1) := by
  cases hs : (r.state n).tx.recvState with
  | busy =>
    obtain ⟨k, hk, hread⟩ := hren n
    obtain ⟨d, rfl⟩ := Nat.exists_eq_add_of_le hk
    exact exists_beat_of_busy hs hread
  | idle =>
    have hunsent : (r.state n).unsent = [] := by
      rw [Sender.unsent, hs]
      rfl
    have hpopped := count_add_unsent (r := r) n
    rw [hunsent, List.length_nil, Nat.add_zero] at hpopped
    rw [arrived_eq, List.length_append] at h
    have hnext := Sender.tx_next_idle (D := r.depth) (i := r.wave n) hs
    obtain ⟨w, l, hfifo⟩ := List.exists_cons_of_length_pos (show 0 < (r.state n).fifo.length by omega)
    rw [hfifo] at hnext
    have hbusy : (r.state (n + 1)).tx.recvState = .busy := by
      change (Sender.next r.depth (r.state n) (r.wave n)).tx.recvState = _
      rw [hnext]
    have hcount : r.count (n + 1) = r.count n := by
      rw [count_succ, presented_eq, Sender.counted, if_neg (by rw [hs]; simp)]
      rfl
    obtain ⟨k, hk, hread⟩ := hren (n + 1)
    obtain ⟨d, rfl⟩ := Nat.exists_eq_add_of_le hk
    obtain ⟨j, hj, hlt⟩ := exists_beat_of_busy hbusy hread
    exact ⟨j, by omega, by rwa [hcount] at hlt⟩

/-- **Every pair of words is sent**, in the transaction of its number, as
long as the channel goes on reading. -/
theorem exists_transaction (hren : ∀ n, ∃ k, n ≤ k ∧ (r.wave k).chnlTxDataRen = true) {i N : ℕ}
    (h : 2 * (i + 1) ≤ (r.arrived N).length) :
    ∃ a b, Period r.chnlTx a b ∧ ended r.chnlTx a = i := by
  obtain ⟨n, -, hzero⟩ := exists_zero_of_progress (μ := fun n => 8 * (i + 1) - r.count n) (a := N)
    fun n hn hpos => by
      have harrived := length_arrived_mono (r := r) hn
      obtain ⟨j, hj, hlt⟩ := exists_beat hren (n := n) (by omega)
      exact ⟨j, hj, by omega⟩
  obtain ⟨-, hlt, -⟩ := count_framed (r := r) n
  obtain ⟨a, b, hper, -, ha⟩ := exists_period (f := r.chnlTx) (show i < ended r.chnlTx n by omega)
  exact ⟨a, b, hper, ha⟩

/-! ## The gap -/

/-- In the gap of a transaction one word of its two has been taken. -/
theorem odd_of_gap {n : ℕ} (h : (r.state n).Gap) : (r.popped n).length % 2 = 1 := by
  obtain ⟨hidle, hgap⟩ := h
  have hcount := count_add_unsent (r := r) n
  have hunsent : (r.state n).unsent = [] := by
    rw [Sender.unsent, hidle]
    rfl
  rw [hunsent, List.length_nil, Nat.add_zero] at hcount
  rw [senderState_eq, hcount, BitVec.getLsbD_ofNat, Bool.and_eq_true,
    Nat.testBit_eq_decide_div_mod_eq, decide_eq_true_iff, decide_eq_true_iff] at hgap
  omega

/-- A sender that stays idle finds nothing in the FIFO. -/
theorem fifo_eq_nil {n : ℕ} (hs : (r.state n).tx.recvState = .idle)
    (hs' : (r.state (n + 1)).tx.recvState = .idle) : (r.state n).fifo = [] := by
  have hnext := Sender.tx_next_idle (D := r.depth) (i := r.wave n) hs
  cases hfifo : (r.state n).fifo with
  | nil => rfl
  | cons w l =>
    rw [hfifo] at hnext
    have hbusy : (r.state (n + 1)).tx.recvState = .busy := by
      change (Sender.next r.depth (r.state n) (r.wave n)).tx.recvState = _
      rw [hnext]
    rw [hs'] at hbusy
    cases hbusy

/-- Nor does it take anything. -/
theorem popped_of_idle {n k : ℕ} (hidle : ∀ k, n ≤ k → (r.state k).tx.recvState = .idle)
    (hk : n ≤ k) : r.popped k = r.popped n := by
  induction k, hk using Nat.le_induction with
  | base => rfl
  | succ k hk ih =>
    have hnil := fifo_eq_nil (hidle k hk) (hidle (k + 1) (by omega))
    have hnone : (r.state k).popped = [] := by
      rw [Sender.popped, hnil]
      split <;> rfl
    rw [popped, trace_succ, ← popped, ih, hnone, List.append_nil]

end FrameRun

end SoftMC
