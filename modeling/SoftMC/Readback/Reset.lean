import SoftMC.Readback.Framing
import Mathlib.Algebra.Group.Nat.Even
/-!
# A reset between the words of a burst

`riffa_reset` resets the sender, not the read-back FIFO behind it, whose
words are the halves of the read bursts in turn. The reset loses the words
of the transaction it cuts off, and an idle sender goes on taking words
during it. What matters afterwards is the parity of all that is lost.
-/

namespace SoftMC

open Clocked

/-! ## One cycle -/

namespace Sender

/-- The clock edge with the reset of `softMC_pcie_app`. `rdback_fifo` is
not reset, and `rdback_fifo_rden` is combinational. -/
def nextRst (depth : Option ℕ) (rst : Bool) (s : Sender) (i : In) : Sender where
  fifo := fifoNext depth s.tx.rdbackFifoRden i.wr s.fifo
  tx := PcieTx.next rst s.tx (s.txIn i)

/-- The words of the open transaction that have left the FIFO. -/
def opened (s : Sender) : ℕ :=
  (s.tx.senderState.getLsbD 2).toNat + if s.tx.recvState = .busy then 1 else 0

/-- The words lost in a cycle of the reset: those of the transaction it
cuts off, and the one an idle sender takes from the FIFO. -/
def lost (s : Sender) : ℕ := s.opened + s.popped.length

variable {s : Sender} {i : In} {D : Option ℕ}

theorem nextRst_false : nextRst D false s i = Sender.next D s i := rfl

/-- The registers a reset leaves. -/
theorem nextRst_true : (nextRst D true s i).tx.recvState = .idle ∧
    (nextRst D true s i).tx.senderState = 0 := ⟨rfl, rfl⟩

theorem Sound.nextRst (h : s.Sound) (rst : Bool) : (nextRst D rst s i).Sound := by
  rcases Bool.eq_false_or_eq_true rst with rfl | rfl
  · exact sound_of_zero nextRst_true.2
  · exact h.next

/-- The FIFO gives out its words in order, reset or not. -/
theorem fifo_nextRst (rst : Bool) :
    s.fifo ++ s.written i D = s.popped ++ (nextRst D rst s i).fifo :=
  fifo_next D

/-- Which word of a transaction is next changes with the words taken. -/
theorem opened_next :
    (Sender.next D s i).opened % 2 = (s.opened + s.popped.length) % 2 := by
  cases hs : s.tx.recvState with
  | idle =>
    rw [opened, opened, popped, PcieTx.rdbackFifoRden, hs, tx_next_idle hs]
    cases s.fifo <;> simp [hs]
  | busy =>
    have hcount : ∀ k : BitVec 3,
        ((k + 1).getLsbD 2).toNat % 2 =
          ((k.getLsbD 2).toNat + if k.extractLsb' 0 2 = 3 then 1 else 0) % 2 := by decide
    rw [opened, opened, popped, PcieTx.rdbackFifoRden, hs, tx_next_busy hs]
    cases i.chnlTxDataRen with
    | false => simp [hs]
    | true =>
      have hk := hcount s.tx.senderState
      by_cases h3 : s.tx.senderState.extractLsb' 0 2 = 3 <;>
        simp only [h3, if_true, if_false, reduceCtorEq, decide_false, Bool.false_eq_true,
          List.length_nil, Nat.add_zero] at hk ⊢ <;>
        omega

/-- **When a cycle of the reset keeps the pairs**, by the registers: the
second half is being sent, or a whole number of words has gone. -/
theorem even_lost_iff : Even s.lost ↔
    (s.tx.recvState = .busy ∧ s.tx.senderState.getLsbD 2 = true) ∨
      (s.tx.recvState = .idle ∧ (s.tx.senderState.getLsbD 2 = true ↔ s.fifo ≠ [])) := by
  rw [lost, opened, popped, PcieTx.rdbackFifoRden]
  cases s.tx.recvState <;> cases s.tx.senderState.getLsbD 2 <;> cases s.fifo <;> simp

end Sender

/-! ## Over a run -/

/-- **A run of the sender with resets**: the host resets it in any cycles,
and the FIFO in none. -/
structure ResetRun where
  depth : Option ℕ
  start : Sender
  idle : start.tx.recvState = .idle
  zero : start.tx.senderState = 0
  wave : ℕ → Sender.In
  rst : ℕ → Bool

namespace ResetRun

variable (r : ResetRun)

/-- The registers at the start of cycle `n`. -/
def state (n : ℕ) : Sender :=
  run (fun s x => Sender.nextRst r.depth x.1 s x.2) r.start (fun k => (r.rst k, r.wave k)) n

def chnlTx (n : ℕ) : Bool := (r.state n).tx.chnlTx

/-- The words that entered the FIFO before cycle `n`, the halves of the
bursts in turn, and those that left it. -/
def entered (n : ℕ) : List RdWord :=
  r.start.fifo ++ trace (fun k => (r.state k).written (r.wave k) r.depth) n
def popped (n : ℕ) : List RdWord := trace (fun k => (r.state k).popped) n

/-- `sender_state` advances in cycle `n`. -/
def advances (n : ℕ) : Bool :=
  decide ((r.state (n + 1)).tx.senderState ≠ (r.state n).tx.senderState)

/-- The slice presented in cycle `n`, if `sender_state` advances, and the
number of its word. -/
def presented (n : ℕ) : List ChnlWord :=
  if r.advances n then [(r.state n).tx.chnlTxData] else []
def wordNo (n : ℕ) : List ℕ := if r.advances n then [(r.popped n).length - 1] else []

/-- A transaction that no reset cuts off. -/
structure Transaction (a b : ℕ) : Prop extends Period r.chnlTx a b where
  quiet : ∀ k, a ≤ k → k < b → r.rst k = false

/-- The transaction sends the words `p` and `p + 1`. -/
structure Sends (a b p : ℕ) : Prop where
  numbers : during r.wordNo a b = List.replicate 4 p ++ List.replicate 4 (p + 1)
  beats : ∃ w w', (r.entered b)[p]? = some w ∧ (r.entered b)[p + 1]? = some w' ∧
    during r.presented a b = Sender.slices w ++ Sender.slices w'

/-- **A transaction of one burst**: the words it sends are its two halves. -/
def OneBurst (a b : ℕ) : Prop := ∃ j, r.Sends a b (2 * j)

/-- A cycle of the reset that loses an odd number of words. -/
def breaks (n : ℕ) : Bool := r.rst n && decide (¬ Even (r.state n).lost)

variable {r}

theorem state_succ (n : ℕ) :
    r.state (n + 1) = Sender.nextRst r.depth (r.rst n) (r.state n) (r.wave n) := rfl

theorem sound (n : ℕ) : (r.state n).Sound := by
  induction n with
  | zero => exact Sender.sound_of_zero r.zero
  | succ n ih => exact ih.nextRst _

theorem order (n : ℕ) : r.entered n = r.popped n ++ (r.state n).fifo :=
  trace_conserved (q := fun k => (r.state k).fifo) (fun k => Sender.fifo_nextRst (r.rst k)) n

/-- **The parity of the words that have left the FIFO**: those of the open
transaction, and what the resets have lost. -/
theorem popped_parity (n : ℕ) :
    (r.popped n).length % 2 = ((r.state n).opened + tally r.breaks 0 n) % 2 := by
  induction n with
  | zero =>
    rw [Sender.opened, state, run_zero, r.idle, r.zero]
    rfl
  | succ n ih =>
    have hlen : (r.popped (n + 1)).length = (r.popped n).length + (r.state n).popped.length := by
      rw [popped, trace_succ, List.length_append, popped]
    rw [hlen, tally_succ, Nat.zero_add, breaks]
    rcases Bool.eq_false_or_eq_true (r.rst n) with hrst | hrst
    · -- a reset: no transaction is open after it, and an odd loss is counted
      have hzero : (r.state (n + 1)).opened = 0 := by
        rw [state_succ, hrst, Sender.opened, Sender.nextRst_true.1, Sender.nextRst_true.2]
        rfl
      rw [hzero, hrst, Bool.true_and]
      by_cases hev : Even (r.state n).lost
      · rw [decide_eq_false (not_not_intro hev)]
        rw [Nat.even_iff, Sender.lost] at hev
        simp only [Bool.toNat_false]
        omega
      · rw [decide_eq_true hev]
        rw [Nat.even_iff, Sender.lost] at hev
        simp only [Bool.toNat_true]
        omega
    · -- no reset: every word popped is one of the open transaction
      have hopened := @Sender.opened_next (r.state n) (r.wave n) r.depth
      rw [state_succ, hrst, Sender.nextRst_false, Bool.false_and, Bool.toNat_false]
      omega

/-! ### One transaction -/

section Transaction

variable {a b : ℕ}

/-- Before a transaction the sender is as a reset leaves it. -/
theorem Transaction.exists_before (h : r.Transaction a b) :
    ∃ u, a = u + 1 ∧ (r.state u).tx.recvState = .idle ∧ (r.state u).tx.senderState = 0 ∧
      ∀ k, u ≤ k → k < b → r.rst k = false := by
  have hzero : r.chnlTx 0 = false := (Sender.chnlTx_eq_false (sound 0)).2 ⟨r.idle, r.zero⟩
  obtain ⟨u, rfl, hu⟩ := h.toPeriod.exists_before hzero
  obtain ⟨hidle, hz⟩ := (Sender.chnlTx_eq_false (sound u)).1 hu
  refine ⟨u, rfl, hidle, hz, fun k huk hkb => ?_⟩
  rcases Nat.eq_or_lt_of_le huk with rfl | hlt
  · -- a reset in the cycle before would keep `CHNL_TX` low
    by_contra hrst
    have hhigh := h.high (u + 1) (Nat.le_refl _) h.lt
    rw [Bool.not_eq_false] at hrst
    rw [chnlTx, (Sender.chnlTx_eq_false (sound (u + 1))).2] at hhigh
    · cases hhigh
    · rw [state_succ, hrst]
      exact Sender.nextRst_true
  · exact h.quiet k hlt hkb

/-- The run of the sender from a cycle in which it is between
transactions. -/
def after (r : ResetRun) (u : ℕ) (hidle : (r.state u).tx.recvState = .idle)
    (hzero : (r.state u).tx.senderState = 0) : FrameRun where
  depth := r.depth
  start := r.state u
  idle := hidle
  zero := hzero
  wave k := r.wave (u + k)

section After

variable {u m : ℕ} (hidle : (r.state u).tx.recvState = .idle)
  (hzero : (r.state u).tx.senderState = 0) (hquiet : ∀ k, u ≤ k → k < u + m → r.rst k = false)

include hquiet

/-- Without a reset the two runs are one. -/
theorem after_state {k : ℕ} (hk : k ≤ m) : (r.after u hidle hzero).state k = r.state (u + k) := by
  induction k with
  | zero => rfl
  | succ k ih =>
    have hnext : (r.after u hidle hzero).state (k + 1) =
        Sender.next r.depth ((r.after u hidle hzero).state k) (r.wave (u + k)) := rfl
    rw [hnext, ih (by omega), ← Nat.add_assoc, state_succ, hquiet (u + k) (by omega) (by omega),
      Sender.nextRst_false]

theorem after_popped {k : ℕ} (hk : k ≤ m) :
    r.popped (u + k) = r.popped u ++ (r.after u hidle hzero).popped k := by
  rw [popped, trace_add, FrameRun.popped]
  congr 1
  exact trace_congr fun l hl => by rw [after_state hidle hzero hquiet (by omega)]

theorem after_advances {k : ℕ} (hk : k < m) :
    (r.after u hidle hzero).advances k = r.advances (u + k) := by
  rw [FrameRun.advances, after_state hidle hzero hquiet (by omega),
    after_state hidle hzero hquiet (by omega), advances, Nat.add_assoc]

/-- A transaction of the one is one of the other. -/
theorem after_period (h : Period r.chnlTx (u + 1) (u + m)) :
    Period (r.after u hidle hzero).chnlTx 1 m := by
  have hlt := h.lt
  have htx : ∀ k, k ≤ m → (r.after u hidle hzero).chnlTx k = r.chnlTx (u + k) := by
    intro k hk
    rw [FrameRun.chnlTx, after_state hidle hzero hquiet hk, chnlTx]
  refine ⟨by omega, fun k hk => ?_, fun k hk hkm => ?_, ?_⟩
  · rw [htx k (by omega)]
    exact h.before _ (by omega)
  · rw [htx k (by omega)]
    exact h.high _ (by omega) (by omega)
  · rw [htx m (by omega)]
    exact h.after

/-- The beats of the one are those of the other. -/
theorem during_after_presented :
    during (r.after u hidle hzero).presented 1 m = during r.presented (u + 1) (u + m) := by
  refine during_shift fun k _ hk => ?_
  rw [presented, FrameRun.presented, after_advances hidle hzero hquiet (by omega),
    after_state hidle hzero hquiet (by omega)]

/-- And their words are numbered from those popped before on. -/
theorem during_after_wordNo :
    (during (r.after u hidle hzero).wordNo 1 m).map ((r.popped u).length + ·) =
      during r.wordNo (u + 1) (u + m) := by
  rw [during_map]
  refine during_shift fun k _ hk => ?_
  have hadvances := after_advances hidle hzero hquiet (show k < m by omega)
  rw [wordNo, FrameRun.wordNo, hadvances, after_popped hidle hzero hquiet (by omega),
    List.length_append]
  rcases Bool.eq_false_or_eq_true (r.advances (u + k)) with hadv | hadv
  · rw [if_pos hadv, if_pos hadv, List.map_singleton,
      FrameRun.popped_length_of_advances (hadvances.trans hadv)]
    rfl
  · rw [hadv]
    rfl

/-- The words of the one are words of the stream. -/
theorem entered_of_after {j : ℕ} {w : RdWord}
    (hw : ((r.after u hidle hzero).popped m)[j]? = some w) :
    (r.entered (u + m))[(r.popped u).length + j]? = some w := by
  have hj : j < ((r.after u hidle hzero).popped m).length := (List.getElem?_eq_some_iff.1 hw).1
  rw [order, after_popped hidle hzero hquiet (Nat.le_refl m), List.append_assoc,
    List.getElem?_append_right (by omega), Nat.add_sub_cancel_left, List.getElem?_append_left hj, hw]

end After

/-- **A transaction sends the next two words of the stream**, those that
leave the FIFO from the cycle before it on. -/
theorem Transaction.exists_sends (h : r.Transaction a b) :
    ∃ p, r.Sends a b p ∧ p % 2 = tally r.breaks 0 a % 2 := by
  obtain ⟨u, rfl, hidle, hzero, hquiet⟩ := h.exists_before
  have hub : u + 1 < b := h.lt
  obtain ⟨m, rfl⟩ : ∃ m, b = u + m := ⟨b - u, by omega⟩
  have hperiod := after_period hidle hzero hquiet h.toPeriod
  have hfirst : ended (r.after u hidle hzero).chnlTx 1 = 0 := by
    rw [ended_succ, FrameRun.not_chnlTx_zero]
    rfl
  refine ⟨(r.popped u).length, ⟨?_, ?_⟩, ?_⟩
  · rw [← during_after_wordNo hidle hzero hquiet, FrameRun.during_wordNo hperiod, hfirst]
    simp
  · obtain ⟨w, w', hw, hw', hbeats⟩ := FrameRun.exists_pair hperiod
    rw [hfirst] at hw hw'
    rw [← during_after_presented hidle hzero hquiet]
    exact ⟨w, w', entered_of_after hidle hzero hquiet hw, entered_of_after hidle hzero hquiet hw',
      hbeats⟩
  · have hopened : (r.state u).opened = 0 := by
      rw [Sender.opened, hidle, hzero]
      rfl
    have hbreaks : r.breaks u = false := by
      rw [breaks, hquiet u (Nat.le_refl u) (by omega)]
      rfl
    rw [popped_parity, hopened, tally_succ, Nat.zero_add, Nat.zero_add, hbreaks]
    rfl

/-- The words of a transaction are known by their numbers. -/
theorem Sends.unique {p q : ℕ} (h : r.Sends a b p) (h' : r.Sends a b q) : p = q := by
  have hheads := congrArg List.head? (h.numbers.symm.trans h'.numbers)
  simpa using hheads

theorem Sends.oneBurst_iff_even {p : ℕ} (h : r.Sends a b p) : r.OneBurst a b ↔ p % 2 = 0 := by
  constructor
  · rintro ⟨j, hj⟩
    rw [h.unique hj]
    omega
  · intro heven
    have hhalf : 2 * (p / 2) = p := by omega
    exact ⟨p / 2, by rw [hhalf]; exact h⟩

/-- **A reset breaks the pairs of the bursts** in as many cycles as it
loses an odd number of words, and every second of them restores the pairs:
a transaction is of one burst if and only if their number before it is
even. -/
theorem oneBurst_iff (r : ResetRun) {a b : ℕ} (h : r.Transaction a b) :
    r.OneBurst a b ↔ Even (tally r.breaks 0 a) := by
  obtain ⟨p, hp, hparity⟩ := h.exists_sends
  rw [hp.oneBurst_iff_even, hparity, Nat.even_iff]

/-- **One reset of one cycle**, by the registers it meets: the pairs stay
where the second half is being sent, where the sender waits and the FIFO is
empty, and where it waits between two halves and the second is lost. -/
theorem oneBurst_iff_of_single (h : r.Transaction a b) {t : ℕ} (hta : t < a)
    (hrst : ∀ n, r.rst n = decide (n = t)) :
    r.OneBurst a b ↔
      ((r.state t).tx.recvState = .busy ∧ (r.state t).tx.senderState.getLsbD 2 = true) ∨
        ((r.state t).tx.recvState = .idle ∧
          ((r.state t).tx.senderState.getLsbD 2 = true ↔ (r.state t).fifo ≠ [])) := by
  obtain ⟨p, hp, hparity⟩ := h.exists_sends
  have hother : ∀ n, n ≠ t → r.breaks n = false := by
    intro n hn
    rw [breaks, hrst, decide_eq_false hn, Bool.false_and]
  have hbreaks : r.breaks t = decide (¬ Even (r.state t).lost) := by
    rw [breaks, hrst, decide_eq_true rfl, Bool.true_and]
  rw [hp.oneBurst_iff_even, hparity, tally_single hother (Nat.zero_le t) (by omega), hbreaks,
    ← Sender.even_lost_iff]
  by_cases hev : Even (r.state t).lost <;> simp [hev]

end Transaction

/-- Four bursts, a channel that always reads, and a reset as wide as
`riffa_endpoint` gives it, from cycle `t` on. -/
def struckAt (t : ℕ) : ResetRun where
  depth := some 1024
  start := { fifo := [], tx := PcieTx.reset false }
  idle := rfl
  zero := rfl
  wave n := { wr := if n < 8 then some (BitVec.ofNat 256 n) else none, chnlTxDataRen := true }
  rst n := decide (t ≤ n ∧ n < t + 5)

/-- **A reset while a first half is sent**, and the four words that the
idle sender takes: the next transaction joins the halves of two bursts. -/
theorem struckAt_four_splits : (struckAt 4).rst 4 = true ∧ (struckAt 4).Transaction 10 19 ∧
    during (struckAt 4).wordNo 10 19 = [5, 5, 5, 5, 6, 6, 6, 6] ∧
    ¬ (struckAt 4).OneBurst 10 19 := by
  have hnumbers : during (struckAt 4).wordNo 10 19 = [5, 5, 5, 5, 6, 6, 6, 6] := by decide +kernel
  refine ⟨rfl, ⟨by decide +kernel, by decide +kernel⟩, hnumbers, ?_⟩
  rintro ⟨j, hj⟩
  have hhead := congrArg List.head? (hnumbers.symm.trans hj.numbers)
  simp only [List.head?_cons, List.replicate_succ, List.cons_append, Option.some.injEq] at hhead
  omega

/-- One while a second half is sent loses whole bursts. -/
theorem struckAt_nine_keeps :
    (struckAt 9).Transaction 15 24 ∧ (struckAt 9).OneBurst 15 24 := by
  have h : (struckAt 9).Transaction 15 24 := ⟨by decide +kernel, by decide +kernel⟩
  exact ⟨h, (oneBurst_iff (struckAt 9) h).2 (by decide +kernel)⟩

end ResetRun

end SoftMC
